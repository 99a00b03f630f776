import MesonLens.Check.Command

/-!
# `MesonLens.Main`: the command line

Looks up on the machine what the command needs to know, carries the command out
and writes what it says.
-/

set_option autoImplicit false

namespace MesonLens

/-- What stands at a path of the machine. -/
def look (p : Path) : IO (Option Entry) := do
  try
    let real ← IO.FS.realPath p.display
    if ← real.isDir then return some .directory
    else return some (.bytes (← IO.FS.readBinFile real).toList)
  catch _ => return none

/-- Looks up paths, and those that build files among them lead to. -/
partial def snapshot (disk : Disk) (seen : List Path) : List Path → IO Disk
  | [] => return disk
  | p :: rest => do
    if seen.contains p.key then snapshot disk seen rest
    else
      let seen := p.key :: seen
      match ← look p with
      | none => snapshot disk seen rest
      | some entry =>
        let disk := disk.write p.normalize entry
        match disk.read p.normalize with
        | .ok text => snapshot disk seen (Check.includedFrom p.normalize text ++ rest)
        | .error _ => snapshot disk seen rest

end MesonLens

open MesonLens in
/-- Runs the command line. -/
def main (args : List String) : IO UInt32 := do
  let here := Path.ofString (← IO.FS.realPath (← IO.currentDir)).toString
  let disk ← snapshot {} [] (Check.lookedAt here args)
  let output := Check.run disk here args
  IO.print output.stdout
  IO.eprint output.stderr
  return output.exitCode.toUInt32
