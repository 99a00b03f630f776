import MesonLens.Editor.CodeAction
import MesonLens.Proofs.Project.Inheritance
import MesonLens.Proofs.Syntax.Lockstep
import MesonLens.Proofs.Syntax.Navigation
import MesonLens.Proofs.Text.Offsets
import MesonLens.Proofs.Token.Locality

/-!
# `MesonLens.Proofs.Editor.Actions`: what a text is after a change that was offered

A change that writes a name or a number anew leaves all other tokens as they are, and the parser
takes the new token where it took the old one.

* `Lexed.respell`: the tokens of a text after such a change;
* `SourceFile.respell`: a text without errors has none after it;
* `CodeAction.errors_eq_nil_of_not_addsCall`: so it is for every change that adds no call;
* `CodeAction.declareDependency_inside_parentheses`: a change that adds one may make errors.
-/

set_option autoImplicit false

namespace MesonLens

/-- A name or a number of a text is written anew where it stands. The tokens before and after it
stay as they are, and there are no more errors. -/
theorem Lexed.respell {text : String} {l : Lexeme} (hl : l ∈ (ofText text).lexemes)
    {goesOn : Char → Bool} {token : Token} (hends : Lexer.EndsBefore goesOn l.token)
    {edit : TextEdit} (hrange : edit.range = l.span.range)
    (hreads : Lexer.ReadsUpTo goesOn token edit.text.toList) :
    ∃ before old rest ls ms, edit.Cuts text before old rest ∧
      old ≠ [] ∧ (∀ d ∈ old, Lexer.continuesWord d = true) ∧
      (ofText text).lexemes = ls ++ l :: ms ∧
      let edited := String.ofList (before ++ (edit.text.toList ++ rest))
      (ofText edited).lexemes.map Lexeme.token =
          ls.map Lexeme.token ++ token :: ms.map Lexeme.token ∧
        (ofText edited).errors.length ≤ (ofText text).errors.length := by
  obtain ⟨ls, ms, hlexemes⟩ := List.append_of_mem hl
  obtain ⟨before, old, rest, htext, hspan, hne, hword, htokens, hless⟩ :=
    Lexer.scan_respell hlexemes hends hreads
  rw [hspan] at hrange
  have hcuts : edit.Cuts text before old rest :=
    ⟨htext, congrArg Range.start hrange, congrArg Range.stop hrange⟩
  refine ⟨before, old, rest, ls, ms, hcuts, hne, hword, hlexemes, ?_⟩
  dsimp only
  rw [ofText, String.toList_ofList]
  exact ⟨htokens, hless⟩

namespace SourceFile

theorem errors_eq_nil_iff {text : String} : (parse text).errors = [] ↔
    (Lexed.ofText text).errors.length = 0 ∧
      (Parse.statements (Lexed.ofText text).lexemes (Position.after {} text.toList)).2.length =
        0 := by
  rw [← List.length_eq_zero_iff, ← Nat.add_eq_zero_iff, ← List.length_append]
  exact Eq.congr_left (List.length_mergeSort _)

/-- A name or a number of a text without errors is written anew, and there are no errors. -/
theorem respell {text : String} (hpaired : Buffer.Paired text.toList)
    (herrors : (parse text).errors = []) {l : Lexeme} (hl : l ∈ (Lexed.ofText text).lexemes)
    {goesOn : Char → Bool} {token : Token} (hlike : l.token.Like token)
    (hends : Lexer.EndsBefore goesOn l.token) {edit : TextEdit} (hrange : edit.range = l.span.range)
    (hreads : Lexer.ReadsUpTo goesOn token edit.text.toList) :
    ∃ edited, edit.applied? text = some edited ∧ (parse edited).errors = [] := by
  obtain ⟨before, old, rest, ls, ms, hcuts, hne, hword, hlexemes, htokens, hless⟩ :=
    Lexed.respell hl hends hrange hreads
  obtain ⟨c, more, rfl⟩ := List.exists_cons_of_ne_nil hne
  -- The word is on one line, and where it starts no carriage return was passed on that line.
  have hfeed : '\n' ∉ c :: more := fun h => absurd (hword _ h) (by decide)
  have hreturn : '\r' ∉ c :: more := fun h => absurd (hword _ h) (by decide)
  have hbefore : '\r' ∉ Position.lastLine before := by
    rw [hcuts.text_eq] at hpaired
    exact Position.not_mem_lastLine hpaired (ne_of_mem_of_not_mem List.mem_cons_self hfeed)
      (ne_of_mem_of_not_mem List.mem_cons_self hreturn)
  refine ⟨_, hcuts.applied?_eq hbefore hfeed hreturn, ?_⟩
  rw [errors_eq_nil_iff] at herrors ⊢
  refine ⟨Nat.eq_zero_of_le_zero (hless.trans_eq herrors.1), ?_⟩
  -- One token is another one, of the same kind; the grammar notes no error at either.
  have htokens' : List.Forall₂ Token.Like ((Lexed.ofText text).lexemes.map Lexeme.token)
      ((Lexed.ofText (String.ofList (before ++ (edit.text.toList ++ rest)))).lexemes.map
        Lexeme.token) := by
    rw [htokens, hlexemes, List.map_append, List.map_cons]
    exact List.rel_append (List.forall₂_same.mpr fun t _ => .refl t)
      (.cons hlike (List.forall₂_same.mpr fun t _ => .refl t))
  rw [List.forall₂_map_left_iff, List.forall₂_map_right_iff] at htokens'
  rw [← (Parse.alike_statements htokens' (Position.after {} text.toList) _).2, herrors.2]

end SourceFile

namespace CodeAction

/-- The change writes a call that was not there: of `copyfile` in the place of another one, or of
`declare_dependency` after a statement. -/
def AddsCall (v : FileView) (action : CodeAction) : Prop :=
  ∃ node ∈ v.source.root.family none,
    copyFile? v.source v.analysis.scope node.2 = some action ∨
      declareDependency? v.source node.1 node.2 = some action

instance (v : FileView) (action : CodeAction) : Decidable (AddsCall v action) :=
  inferInstanceAs (Decidable (∃ node ∈ v.source.root.family none, _))

/-- What a node offers: a number in another base, another function to call, or a new call. -/
theorem of_mem_ofNode {source : SourceFile} {scope : Scope} {parent : Option (Tree Mark)}
    {t : Tree Mark} {action : CodeAction} (h : action ∈ ofNode source scope parent t) :
    (∃ mark value raw, t = .integer mark value raw ∧
      action ∈ conversions mark.span.range value raw) ∨
    (∃ mark name, .identifier mark name ∈ t.children ∧
      action ∈ renames (.identifier mark name) name) ∨
    copyFile? source scope t = some action ∨ declareDependency? source parent t = some action := by
  cases t with
  | integer mark value raw => exact .inl ⟨mark, value, raw, rfl, h⟩
  | call mark callee args =>
    cases callee with
    | identifier mark' name =>
      rcases List.mem_append.mp h with h | h
      · rcases List.mem_append.mp h with h | h
        · exact .inr (.inl ⟨mark', name, List.mem_cons_self, h⟩)
        · split at h
          · exact .inr (.inr (.inl (Option.mem_toList.mp h)))
          · cases h
      · split at h
        · exact .inr (.inr (.inr (Option.mem_toList.mp h)))
        · cases h
    | _ => cases h
  | _ => cases h

/-- The names of the functions that take each other's place. -/
def respelledNames : List String := ["library", "static_library", "shared_library", "shared_module"]

theorem word_of_mem_respelledNames : ∀ name ∈ respelledNames,
    Token.isWord name.toList = true ∧ name ∉ Token.reserved ∧ name ≠ "f" := by
  decide

theorem head_of_mem_respelledNames {name : String} (h : name ∈ respelledNames) :
    ∀ c ∈ name.toList.head?, c.isAlphanum = true := by
  have hheads : ∀ name ∈ respelledNames, name.toList.head?.toList.all Char.isAlphanum = true := by
    decide
  exact fun c hc => List.all_eq_true.mp (hheads name h) c (Option.mem_toList.mpr hc)

theorem of_mem_renames {callee : Tree Mark} {name : String} {action : CodeAction}
    (h : action ∈ renames callee name) :
    name ∈ respelledNames ∧ action.edit.text ∈ respelledNames ∧
      action.edit.range = callee.span.range := by
  simp only [renames, List.mem_append, List.mem_ite_nil_right, List.mem_singleton] at h
  rcases h with (⟨rfl | rfl, rfl⟩ | ⟨rfl, rfl⟩) | ⟨rfl, rfl⟩ <;>
    simp [respelledNames, rename]

variable {text : String} {action : CodeAction}

/-- A number in another base is read as the same number. -/
theorem conversion_keeps (hpaired : Buffer.Paired text.toList)
    (herrors : (SourceFile.parse text).errors = []) {mark : Mark} {value : Nat} {raw : String}
    (hnode : .integer mark value raw ∈ (SourceFile.parse text).root.preorder)
    (h : action ∈ conversions mark.span.range value raw) :
    ∃ edited, action.edit.applied? text = some edited ∧ (SourceFile.parse edited).errors = [] := by
  have hl := SourceFile.integer_mem_lexemes hnode
  have hvalue := Lexer.lt_of_mem_lexemes hl rfl
  obtain ⟨base, -, rfl⟩ := List.mem_map.mp h
  exact SourceFile.respell hpaired herrors hl (.integer value value)
    (Lexer.endsBefore_integer value) rfl (Lexer.readsUpTo_integer base hvalue)

/-- The name of another function is read as a name. -/
theorem rename_keeps (hpaired : Buffer.Paired text.toList)
    (herrors : (SourceFile.parse text).errors = []) {mark : Mark} {name : String}
    (hnode : .identifier mark name ∈ (SourceFile.parse text).root.preorder)
    (h : action ∈ renames (.identifier mark name) name) :
    ∃ edited, action.edit.applied? text = some edited ∧ (SourceFile.parse edited).errors = [] := by
  obtain ⟨l, hl, htoken, hspan⟩ := SourceFile.name_mem_lexemes hnode
  obtain ⟨hold, hnew, hrange⟩ := of_mem_renames h
  obtain ⟨hword, hname, hmark⟩ := word_of_mem_respelledNames _ hnew
  have hreads := Lexer.readsUpTo_name hword hname (head_of_mem_respelledNames hnew) hmark
  refine SourceFile.respell hpaired herrors hl ?_ ?_ ?_ hreads
  · rw [htoken]
    exact .name _ _
  · rw [htoken]
    exact Lexer.endsBefore_name (head_of_mem_respelledNames hold)
  · rw [hrange, hspan]
    rfl

/-- In a file without errors, whose carriage returns stand before line feeds, every change that is
offered and adds no call leaves a text without errors. -/
theorem errors_eq_nil_of_not_addsCall {disk : Disk} {source : Source} {cache cache' : Cache}
    {root : Path} {project : Project} (hcache : cache.Genuine)
    (hparse : Project.parse disk source cache root = .ok (project, cache')) {c : Catalog}
    {path : Path} {v : FileView} (hview : (project.analyze c).view? path = some v)
    (hpaired : Buffer.Paired v.source.text.toList) (herrors : v.source.errors = [])
    {line column : Nat} (haction : action ∈ all (project.analyze c) path line column)
    (hadds : ¬ AddsCall v action) :
    ∃ edited, action.edit.applied? v.source.text = some edited ∧
      (SourceFile.parse edited).errors = [] := by
  have hsource := Project.source_of_view hcache hparse hview
  rw [all, hview, Option.map_some, Option.getD_some] at haction
  obtain ⟨⟨parent, t⟩, hfamily, haction⟩ := List.mem_flatMap.mp haction
  have ht := Tree.mem_preorder_of_family hfamily
  rw [hsource] at ht herrors
  obtain ⟨-, haction⟩ := List.mem_ite_nil_right.mp haction
  rcases of_mem_ofNode haction with ⟨mark, value, raw, rfl, h⟩ | ⟨mark, name, hchild, h⟩ | h
  · exact conversion_keeps hpaired herrors ht h
  · have hcallee := Tree.mem_preorder_of_mem_children hchild (Tree.mem_preorder_self _)
    exact rename_keeps hpaired herrors (Tree.mem_preorder_trans ht hcallee) h
  · exact absurd ⟨(parent, t), hfamily, h⟩ hadds

/-- A library in a list, on a line that ends with a carriage return and a line feed. -/
theorem errors_eq_nil_of_not_addsCall_library :
    let root : Path := ⟨true, ["p"]⟩
    let text := "x = [shared_library('a'), 0x1F]\r\n"
    let source : Source := { overrides := [(buildFile root, text)], opened := [buildFile root] }
    ∃ project cache', Project.parse {} source {} root = .ok (project, cache') ∧
      ∃ action ∈ all (project.analyze {}) (buildFile root) 0 6,
        action.title = "Use generic library()" ∧
          ∃ edited, action.edit.applied? text = some edited ∧
            (SourceFile.parse edited).errors = [] := by
  intro root text source
  have hread : ((Project.parse {} source {} root).toOption.bind fun (read : Project × Cache) =>
      ((read.1.analyze {}).view? (buildFile root)).map fun v =>
        decide (v.source.text = text ∧ v.source.errors = [] ∧
          ∃ action ∈ all (read.1.analyze {}) (buildFile root) 0 6,
            action.title = "Use generic library()" ∧ ¬ AddsCall v action)) = some true := by
    decide +kernel
  obtain ⟨read, hparse, hread⟩ := Option.bind_eq_some_iff.mp hread
  obtain ⟨v, hview, hread⟩ := Option.map_eq_some_iff.mp hread
  obtain ⟨htext, herrors, action, haction, htitle, hadds⟩ := of_decide_eq_true hread
  have hparse := Project.ok_of_toOption hparse
  have hpaired : Buffer.Paired v.source.text.toList := by
    rw [htext]
    decide
  exact ⟨read.1, read.2, hparse, action, haction, htitle, htext ▸
    errors_eq_nil_of_not_addsCall Cache.genuine_empty hparse hview hpaired herrors haction hadds⟩

/-- A statement ends before the parenthesis that closes its value. What is put there stands inside
the parentheses, so a text that can be read becomes one that cannot. -/
theorem declareDependency_inside_parentheses :
    let root : Path := ⟨true, ["p"]⟩
    let text := "x = (library('a'))\n"
    let edited := "x = (library('a')\nx_dep = declare_dependency(link_with: x))\n"
    let source : Source := { overrides := [(buildFile root, text)], opened := [buildFile root] }
    (SourceFile.parse text).errors = [] ∧ (SourceFile.parse edited).errors ≠ [] ∧
      ∃ project cache', Project.parse {} source {} root = .ok (project, cache') ∧
        ∃ action ∈ all (project.analyze {}) (buildFile root) 0 6,
          action.edit.applied? text = some edited := by
  intro root text edited source
  have hread : ((Project.parse {} source {} root).toOption.map fun (read : Project × Cache) =>
      decide (∃ action ∈ all (read.1.analyze {}) (buildFile root) 0 6,
        action.edit.applied? text = some edited)) = some true := by
    decide +kernel
  obtain ⟨read, hparse, hread⟩ := Option.map_eq_some_iff.mp hread
  exact ⟨by decide +kernel, by decide +kernel, read.1, read.2, Project.ok_of_toOption hparse,
    of_decide_eq_true hread⟩

end CodeAction

end MesonLens
