import MesonLens.Text.CodeTable
import MesonLens.Text.Mark

/-!
# `MesonLens.Text.Joining`: letters that are written together

In some scripts a letter is joined to its neighbours. Two characters that are not
seen ask for joining or forbid it; they make sense only at some places. The table
is that of Unicode 17, without the characters that the name of no machine has.

* `Joining.ofChar`: how a letter is joined;
* `Joining.allowsJoiners`: whether the unseen characters stand where they may.
-/

set_option autoImplicit false

namespace MesonLens

/-- How a letter is joined to its neighbours. -/
inductive Joining where
  | both
  /-- To the letter before it. -/
  | before
  /-- To the letter after it. -/
  | after
  /-- It makes its neighbours join. -/
  | causing
  /-- It is passed over. -/
  | transparent
  | none
  deriving DecidableEq, Repr

namespace Joining

/-- Letters that are joined, with their places in `listed`. -/
def rows : List String :=
  ["620:0 626:0 628:0 62a-62e:0 633-63f:0 641-647:0 649-64a:0 66e-66f:0 679-687:0 69a-6bf:0",
    "6c1-6c2:0 6cc:0 6ce:0 6d0-6d1:0 6fa-6fc:0 6ff:0 712-714:0 71a-71d:0 71f-727:0 729:0 72b:0",
    "72d-72e:0 74e-758:0 75c-76a:0 76d-770:0 772:0 775-777:0 77a-77f:0 7ca-7ea:0 841-845:0",
    "848:0 84a-853:0 855:0 860:0 862-865:0 868:0 886:0 889-88d:0 88f:0 8a0-8a9:0 8af-8b0:0",
    "8b3-8b8:0 8ba-8c8:0 1807:0 1820-1878:0 1887-18a8:0 18aa:0 a840-a871:0 10ac0-10ac4:0",
    "10ad3-10ad6:0 10ad8-10adc:0 10ade-10ae0:0 10aeb-10aee:0 10b80:0 10b82:0 10b86-10b88:0",
    "10b8a-10b8b:0 10b8d:0 10b90:0 10bad-10bae:0 10d01-10d21:0 10d23:0 10ec3-10ec4:0",
    "10ec6-10ec7:0 10f30-10f32:0 10f34-10f44:0 10f51-10f53:0 10f70-10f73:0 10f76-10f81:0",
    "10fb0:0 10fb2-10fb3:0 10fb8:0 10fbb-10fbc:0 10fbe-10fbf:0 10fc1:0 10fc4:0 10fca:0",
    "1e922-1e943:0 622-625:1 627:1 629:1 62f-632:1 648:1 671-673:1 688-699:1 6c0:1 6c3-6cb:1",
    "6cd:1 6cf:1 6d2-6d3:1 6d5:1 6ee-6ef:1 710:1 715-719:1 71e:1 728:1 72a:1 72c:1 72f:1 74d:1",
    "759-75b:1 76b-76c:1 771:1 773-774:1 778-779:1 840:1 846-847:1 849:1 854:1 856-858:1 867:1",
    "869-86a:1 870-882:1 88e:1 8aa-8ac:1 8ae:1 8b1-8b2:1 8b9:1 10ac5:1 10ac7:1 10ac9-10aca:1",
    "10ace-10ad2:1 10add:1 10ae1:1 10ae4:1 10aef:1 10b81:1 10b83-10b85:1 10b89:1 10b8c:1",
    "10b8e-10b8f:1 10b91:1 10ba9-10bac:1 10d22:1 10ec2:1 10f33:1 10f54:1 10f74-10f75:1",
    "10fb4-10fb6:1 10fb9-10fba:1 10fbd:1 10fc2-10fc3:1 10fc9:1 a872:2 10acd:2 10ad7:2 10d00:2",
    "10fcb:2 640:3 7fa:3 883-885:3 180a:3 200d:3"]

/-- The ways of the table. -/
def listed : List Joining := [both, before, after, causing]

/-- Letters that are joined. -/
def table : List ((Nat × Nat) × Nat) := CodeTable.classified rows

/-- How a letter is joined. A mark is passed over, and so is one sign that counts
as a letter. -/
def ofChar (c : Char) : Joining :=
  if Mark.isNonspacing c || c.toNat = 0x1e94b then transparent
  else ((CodeTable.classOf? table c).bind (listed[·]?)).getD none

/-- The character that forbids joining. -/
def nonJoiner : Char := '\u200c'

/-- The character that asks for joining. -/
def joiner : Char := '\u200d'

/-- How the next letter is joined that is not passed over. -/
def next (cs : List Char) : Joining :=
  ((cs.map ofChar).dropWhile (· = transparent)).head?.getD none

/-- Whether an unseen character may stand between two texts, of which the first
comes last first: behind a sign that takes a vowel away, or where letters would
be joined if joining were not forbidden. -/
def mayStand (c : Char) (passed coming : List Char) : Bool :=
  passed.head?.any (fun d => Mark.order d = Mark.virama)
    || (c = nonJoiner && [both, after].contains (next passed)
      && [both, before].contains (next coming))

/-- Whether the unseen characters of a text stand where they may, after
characters that come last first. -/
def allowsJoiners (passed : List Char) : List Char → Bool
  | [] => true
  | c :: cs =>
    (!(c = nonJoiner || c = joiner) || mayStand c passed cs) && allowsJoiners (c :: passed) cs

end Joining

end MesonLens
