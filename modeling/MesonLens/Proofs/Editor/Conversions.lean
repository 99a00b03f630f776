import MesonLens.Proofs.Editor.Actions
import MesonLens.Proofs.Syntax.NodeAt
import MesonLens.Proofs.Token.Spelling

/-!
# `MesonLens.Proofs.Editor.Conversions`: a number in another base

A number can be written in four bases, and the three that it is not written in are offered. What
base that is the change tells from the first two characters of the number in lower case, and the
lexer from the same two characters as they are: `Lexer.radix_eq_size`.

* `CodeAction.cuts_conversion`: what the text is after the change, from `Lexed.respell`;
* `CodeAction.filter_isConversion`: of all that is offered at a place of the number, the conversions
  are those of the number, because no other number is around the place;
* `CodeAction.conversions_keep_tokens` puts the two together for every file.
-/

set_option autoImplicit false

namespace MesonLens

open CodeAction (Base)

/-! ### Bases -/

/-- The radix in which the lexer reads a written number. -/
def Lexer.radix (written : String) : Nat :=
  match written.toList with
  | [] => 10
  | c :: cs => (radixOf c cs).1

/-- The letters that tell a radix, in either case. -/
theorem toLower_eq_iff {c : Char} :
    (c.toLower = '0' ↔ c = '0') ∧ (c.toLower = 'x' ↔ c = 'x' ∨ c = 'X') ∧
      (c.toLower = 'o' ↔ c = 'o' ∨ c = 'O') ∧ (c.toLower = 'b' ↔ c = 'b' ∨ c = 'B') := by
  -- Only the letters from `A` to `Z` are moved, and all of them by as much.
  unfold Char.toLower
  split
  · next h =>
    simp [Char.ext_iff, UInt32.ext_iff, UInt32.le_iff_toNat_le] at h ⊢
    omega
  · next h =>
    simp [Char.ext_iff, UInt32.ext_iff, UInt32.le_iff_toNat_le] at h ⊢
    omega

theorem toLower_of_isDigit {c : Char} (h : c.isDigit = true) : c.toLower = c := by
  unfold Char.toLower
  split
  · next hupper =>
    simp [Char.isDigit, UInt32.le_iff_toNat_le] at h hupper
    omega
  · rfl

theorem CodeAction.Base.of_eq_decimal {written : String} {c : Char} {cs : List Char}
    (h : written.toList = c :: cs) (hc : c ≠ '0') : Base.of written = .decimal := by
  have hlower : c.toLower ≠ '0' := fun h => hc (toLower_eq_iff.1.mp h)
  rw [Base.of, h, List.map_cons]
  split
  · next heq => exact absurd (List.cons.inj heq).1 hlower
  · next heq => exact absurd (List.cons.inj heq).1 hlower
  · next heq => exact absurd (List.cons.inj heq).1 hlower
  · rfl

/-- The change and the lexer find the same base. -/
theorem Lexer.radix_eq_size (written : String) : radix written = (Base.of written).size := by
  cases hchars : written.toList with
  | nil => rw [radix, Base.of, hchars]; rfl
  | cons c cs =>
    by_cases hc : c = '0'
    · subst hc
      rw [radix, Base.of, hchars]
      cases cs with
      | nil => rfl
      | cons d cs =>
        obtain ⟨-, hx, ho, hb⟩ := @toLower_eq_iff d
        simp only [radixOf, List.map_cons, show '0'.toLower = '0' from rfl, ← hx, ← ho, ← hb]
        -- The second character in lower case tells the radix on both sides.
        split
        · next hd => rw [hd]; rfl
        split
        · next hd => rw [hd]; rfl
        split
        · next hd => rw [hd]; rfl
        · split <;> simp_all [Base.size]
    · have hten : radixOf c cs = (10, 0) := by
        unfold radixOf
        split
        · exact absurd rfl hc
        · rfl
      rw [radix, hchars, Base.of_eq_decimal hchars hc]
      dsimp only
      rw [hten, Base.size]

theorem CodeAction.Base.of_eq_decimal_of_isDigit {written : String}
    (h : ∀ c ∈ written.toList, c.isDigit = true) : Base.of written = .decimal := by
  have hdigits : ∀ c ∈ written.toList.map Char.toLower, c.isDigit = true := by
    intro c hc
    obtain ⟨d, hd, rfl⟩ := List.mem_map.mp hc
    rw [toLower_of_isDigit (h d hd)]
    exact h d hd
  rw [Base.of]
  generalize written.toList.map Char.toLower = cs at hdigits
  split
  · exact absurd (hdigits 'x' (by simp)) (by decide)
  · exact absurd (hdigits 'o' (by simp)) (by decide)
  · exact absurd (hdigits 'b' (by simp)) (by decide)
  · rfl

/-- A number that is written in a base is read in it. -/
theorem CodeAction.Base.of_write (b : Base) (n : Nat) : Base.of (b.write n) = b := by
  have hchars : (b.write n).toList = b.mark.toList ++ Nat.toDigits b.size n := by
    rw [write, String.toList_append, String.toList_ofList]
  cases b with
  | hexadecimal | octal | binary =>
    rw [Base.of, hchars]
    rfl
  | decimal =>
    refine of_eq_decimal_of_isDigit fun c hc => ?_
    rw [hchars] at hc
    exact Nat.isDigit_of_mem_toDigits (by decide) (by decide) hc

theorem Lexer.radix_write (b : Base) (n : Nat) : radix (b.write n) = b.size := by
  rw [radix_eq_size, Base.of_write]

namespace CodeAction

/-! ### What is offered -/

/-- The title of the conversions to a base. -/
def Base.title (b : Base) : String := s!"Convert to {b.display} literal"

/-- Whether a change writes a number in another base. -/
def isConversion (action : CodeAction) : Bool := Base.all.any fun b => action.title == b.title

theorem isConversion_of_mem_conversions {range : Range} {value : Nat} {raw : String}
    {action : CodeAction} (h : action ∈ conversions range value raw) :
    action.isConversion = true := by
  obtain ⟨b, hb, rfl⟩ := List.mem_map.mp h
  exact List.any_eq_true.mpr ⟨b, (List.mem_filter.mp hb).1, beq_self_eq_true _⟩

/-- The titles of conversions start with a letter that others may not start with. -/
theorem isConversion_eq_false_of_head {action : CodeAction}
    (h : action.title.toList.head? ≠ some 'C') : action.isConversion = false := by
  have htitles : ∀ b ∈ Base.all, b.title.toList.head? = some 'C' := by decide
  refine List.any_eq_false.mpr fun b hb => ?_
  intro heq
  rw [eq_of_beq heq] at h
  exact h (htitles b hb)

theorem title_of_copyFile? {source : SourceFile} {scope : Scope} {call : Tree Mark}
    {action : CodeAction} (h : copyFile? source scope call = some action) :
    action.title = "Use fs.copyfile()" := by
  obtain ⟨_, -, h⟩ := Option.bind_eq_some_iff.mp h
  obtain ⟨_, -, h⟩ := Option.bind_eq_some_iff.mp h
  obtain ⟨_, -, h⟩ := Option.bind_eq_some_iff.mp h
  obtain ⟨_, -, h⟩ := Option.bind_eq_some_iff.mp h
  split at h
  · cases h
    rfl
  · cases h

theorem title_of_declareDependency? {source : SourceFile} {parent : Option (Tree Mark)}
    {call : Tree Mark} {action : CodeAction}
    (h : declareDependency? source parent call = some action) :
    ∃ name, action.title = "Declare dependency '" ++ name := by
  unfold declareDependency? at h
  split at h
  · dsimp only at h
    split at h
    · cases h
      exact ⟨_, String.append_assoc⟩
    · cases h
  · cases h

/-- Only numbers offer conversions. -/
theorem isConversion_eq_false_of_mem_ofNode {source : SourceFile} {scope : Scope}
    {parent : Option (Tree Mark)} {t : Tree Mark} {action : CodeAction} (ht : t.kind ≠ .integer)
    (h : action ∈ ofNode source scope parent t) : action.isConversion = false := by
  rcases of_mem_ofNode h with ⟨mark, value, raw, rfl, -⟩ | ⟨mark, name, -, h⟩ | h | h
  · exact absurd rfl ht
  · simp only [renames, List.mem_append, List.mem_ite_nil_right, List.mem_singleton] at h
    -- Two of these titles start like those of conversions, but not one of them is one.
    have htitles : ∀ title ∈ ["Use generic library()", "Convert to shared_module()",
        "Convert to shared_library()"], (Base.all.any fun b => title == b.title) = false := by
      decide
    rcases h with (⟨-, rfl⟩ | ⟨-, rfl⟩) | ⟨-, rfl⟩ <;> exact htitles _ (by simp [rename])
  · refine isConversion_eq_false_of_head ?_
    rw [title_of_copyFile? h]
    decide
  · refine isConversion_eq_false_of_head ?_
    obtain ⟨name, hname⟩ := title_of_declareDependency? h
    rw [hname, String.toList_append]
    exact fun h => absurd (Option.some.inj h) (by decide)

variable {text : String} {mark : Mark} {value : Nat} {raw : String} {line column : Nat}

/-- No other number is around a place of a number. -/
theorem eq_of_integer (hnode : .integer mark value raw ∈ (SourceFile.parse text).root.preorder)
    (hplace : mark.span.contains line column = true) {t : Tree Mark}
    (ht : t ∈ (SourceFile.parse text).root.preorder) (hkind : t.kind = .integer)
    (htplace : t.span.contains line column = true) : t = .integer mark value raw := by
  cases t with
  | integer mark' value' raw' =>
    have hleaf : ∀ {mark : Mark} {value : Nat} {raw : String} {u : Tree Mark},
        u ∈ (Tree.integer mark value raw).preorder → u = .integer mark value raw := by
      intro mark value raw u hu
      rw [Tree.preorder_eq] at hu
      simpa [Tree.children] using hu
    rcases (SourceFile.nested_root text).mem_or_mem ht hnode htplace hplace with h | h
    · exact hleaf h
    · exact (hleaf h).symm
  | _ => cases hkind

/-- Of all that is offered at a place of a number, the conversions are those of the number. -/
theorem filter_isConversion
    (hnode : .integer mark value raw ∈ (SourceFile.parse text).root.preorder)
    (hplace : mark.span.contains line column = true) (scope : Scope) :
    let f := SourceFile.parse text
    ((f.root.family none).flatMap fun (parent, t) =>
      if t.span.contains line column then ofNode f scope parent t else []).filter isConversion =
        conversions mark.span.range value raw := by
  intro f
  let offered (node : Option (Tree Mark) × Tree Mark) : List CodeAction :=
    if node.2.span.contains line column then ofNode f scope node.1 node.2 else []
  show ((f.root.family none).flatMap offered).filter isConversion = _
  obtain ⟨⟨parent, t⟩, hmem, rfl⟩ : ∃ node ∈ f.root.family none,
      node.2 = .integer mark value raw := by
    rw [← Tree.map_snd_family none] at hnode
    exact List.mem_map.mp hnode
  obtain ⟨pre, post, hfamily⟩ := List.append_of_mem hmem
  have hids : (f.root.family none).map (fun node => node.2.id) = f.root.ids := by
    rw [Tree.ids, ← Tree.map_snd_family none, List.map_map]
    rfl
  -- The number is listed once, so that the other nodes around the place are no numbers.
  have hothers : ∀ node ∈ pre ++ post, (offered node).filter isConversion = [] := by
    intro node hother
    rw [List.filter_eq_nil_iff]
    intro action haction
    obtain ⟨hplace', haction⟩ := List.mem_ite_nil_right.mp haction
    have hlisted : node ∈ f.root.family none := by
      rw [hfamily, List.mem_append, List.mem_cons]
      exact (List.mem_append.mp hother).imp id .inr
    have hne : node.2.id ≠ mark.id := by
      have hnodup := SourceFile.nodup_ids_root text
      change f.root.ids.Nodup at hnodup
      rw [← hids, hfamily, List.map_append, List.map_cons, List.nodup_middle, List.nodup_cons,
        ← List.map_append] at hnodup
      intro heq
      exact hnodup.1 (List.mem_map.mpr ⟨node, hother, heq⟩)
    have hkind : node.2.kind ≠ .integer := by
      intro hkind
      have heq := eq_of_integer hnode hplace (Tree.mem_preorder_of_family hlisted) hkind hplace'
      rw [heq] at hne
      exact hne rfl
    rw [isConversion_eq_false_of_mem_ofNode hkind haction]
    exact Bool.false_ne_true
  rw [List.forall_mem_append] at hothers
  have hnumber : offered (parent, .integer mark value raw) = conversions mark.span.range value raw :=
    if_pos hplace
  rw [hfamily, List.flatMap_append, List.flatMap_cons, List.filter_append, List.filter_append,
    List.filter_flatMap, List.filter_flatMap, List.flatMap_eq_nil_iff.mpr hothers.1,
    List.flatMap_eq_nil_iff.mpr hothers.2, List.nil_append, List.append_nil, hnumber,
    List.filter_eq_self]
  exact fun action => isConversion_of_mem_conversions

/-! ### Texts after a change -/

/-- A number in another base stands where the number did, and is read as the same token. -/
theorem cuts_conversion (hnode : .integer mark value raw ∈ (SourceFile.parse text).root.preorder)
    {action : CodeAction} (h : action ∈ conversions mark.span.range value raw) :
    ∃ before old rest, action.edit.Cuts text before old rest ∧
      (∀ c ∈ old, Lexer.continuesWord c = true) ∧
      let edited := String.ofList (before ++ (action.edit.text.toList ++ rest))
      (Lexed.ofText edited).lexemes.map Lexeme.token =
          (Lexed.ofText text).lexemes.map Lexeme.token ∧
        (Lexed.ofText edited).errors.length ≤ (Lexed.ofText text).errors.length := by
  obtain ⟨base, -, haction⟩ := List.mem_map.mp h
  have hl := SourceFile.integer_mem_lexemes hnode
  have hrange : action.edit.range = mark.span.range := by rw [← haction]
  have hreads : Lexer.ReadsUpTo Char.isAlphanum (.integer value) action.edit.text.toList := by
    rw [← haction]
    exact Lexer.readsUpTo_integer base (Lexer.lt_of_mem_lexemes hl rfl)
  obtain ⟨before, old, rest, ls, ms, hcuts, -, hword, hlexemes, htokens, hless⟩ :=
    Lexed.respell hl (Lexer.endsBefore_integer value) hrange hreads
  refine ⟨before, old, rest, hcuts, hword, ?_, hless⟩
  rw [htokens, hlexemes, List.map_append, List.map_cons]

theorem map_radix_conversions (range : Range) (value : Nat) (raw : String) :
    (conversions range value raw).map (fun action => Lexer.radix action.edit.text) =
      [16, 8, 2, 10].filter (· ≠ Lexer.radix raw) := by
  rw [conversions, List.map_map, Lexer.radix_eq_size raw]
  have hradix : (fun action : CodeAction => Lexer.radix action.edit.text) ∘
      (fun b : Base => ⟨b.title, range, b.write value⟩) = Base.size :=
    funext fun b => Lexer.radix_write b value
  refine (congrArg (List.map · _) hradix).trans ?_
  cases Base.of raw <;> decide

/-- **The number in the other bases**, for every number of a file and every place in it.

* Three conversions are offered. The lexer reads them in the radixes 16, 8, 2 and 10, in this order,
  without the one in which it reads the number.
* The range of each cuts the text in one way. The text with the new number has the same tokens, each
  of the same kind and with the same value, and no more lexical errors.
* That is the text that `TextEdit.applied?` finds by lines and columns when no carriage return
  stands before the number on its line. -/
theorem conversions_keep_tokens {disk : Disk} {source : Source} {cache cache' : Cache} {root : Path}
    {project : Project} (hcache : cache.Genuine)
    (hparse : Project.parse disk source cache root = .ok (project, cache')) {c : Catalog}
    {path : Path} {v : FileView} (hview : (project.analyze c).view? path = some v)
    (hnode : .integer mark value raw ∈ v.source.root.preorder)
    (hplace : mark.span.contains line column = true) :
    let text := v.source.text
    let offered := (all (project.analyze c) path line column).filter isConversion
    offered.length = 3 ∧
    offered.map (fun action => Lexer.radix action.edit.text) =
      [16, 8, 2, 10].filter (· ≠ Lexer.radix raw) ∧
    ∀ action ∈ offered, Lexer.radix action.edit.text ≠ Lexer.radix raw ∧
      (∃ before old rest, action.edit.Cuts text before old rest) ∧
      ∀ before old rest, action.edit.Cuts text before old rest →
        let edited := String.ofList (before ++ (action.edit.text.toList ++ rest))
        (Lexed.ofText edited).lexemes.map Lexeme.token =
            (Lexed.ofText text).lexemes.map Lexeme.token ∧
          (Lexed.ofText edited).errors.length ≤ (Lexed.ofText text).errors.length ∧
          ('\r' ∉ Position.lastLine before → action.edit.applied? text = some edited) := by
  intro text offered
  have hsource : v.source = SourceFile.parse text := Project.source_of_view hcache hparse hview
  rw [hsource] at hnode
  have hoffered : offered = conversions mark.span.range value raw := by
    show (all _ path line column).filter isConversion = _
    rw [all, hview, Option.map_some, Option.getD_some, hsource]
    exact filter_isConversion hnode hplace v.analysis.scope
  have hradixes := map_radix_conversions mark.span.range value raw
  rw [hoffered]
  refine ⟨?_, hradixes, fun action haction => ?_⟩
  · rw [conversions, List.length_map]
    cases Base.of raw <;> decide
  have hradix : Lexer.radix action.edit.text ∈ [16, 8, 2, 10].filter (· ≠ Lexer.radix raw) := by
    rw [← hradixes]
    exact List.mem_map_of_mem haction
  obtain ⟨before, old, rest, hcuts, hword, htokens, herrors⟩ := cuts_conversion hnode haction
  refine ⟨?_, ⟨before, old, rest, hcuts⟩, ?_⟩
  · simpa using (List.mem_filter.mp hradix).2
  intro before' old' rest' hcuts'
  obtain ⟨rfl, rfl, rfl⟩ := hcuts.unique hcuts'
  refine ⟨htokens, herrors, fun hreturn => ?_⟩
  have hfeed : '\n' ∉ old := fun h => absurd (hword _ h) (by decide)
  have hold : '\r' ∉ old := fun h => absurd (hword _ h) (by decide)
  exact hcuts.applied?_eq hreturn hfeed hold

/-- A number with a digit that its radix does not have is read as zero, with an error. The
conversions are read as zero too, without one. -/
theorem conversions_keep_tokens_malformed :
    let root : Path := ⟨true, ["p"]⟩
    let text := "x = [0X1f, 0b29]\n"
    let source : Source := { overrides := [(buildFile root, text)], opened := [buildFile root] }
    ∃ project cache', Project.parse {} source {} root = .ok (project, cache') ∧
      let offered := (all (project.analyze {}) (buildFile root) 0 12).filter isConversion
      offered.map (fun action => Lexer.radix action.edit.text) = [16, 8, 10] ∧
        ∀ action ∈ offered, ∃ edited, action.edit.applied? text = some edited ∧
          (Lexed.ofText edited).lexemes.map Lexeme.token =
            (Lexed.ofText text).lexemes.map Lexeme.token := by
  intro root text source
  obtain ⟨project, cache', v, hparse, hview, -, hsource⟩ :=
    Project.exists_view source root (buildFile root) {} text (by decide +kernel)
  have hnumber : ∃ t ∈ (SourceFile.parse text).root.preorder, (match t with
      | .integer mark _ raw => mark.span.contains 0 12 && raw == "0b29"
      | _ => false) = true := by
    decide +kernel
  obtain ⟨t, hnode, ht⟩ := hnumber
  have htext : v.source.text = text := by rw [hsource]; rfl
  cases t with
  | integer mark value raw =>
    obtain ⟨hplace, hraw⟩ := Bool.and_eq_true_iff.mp ht
    obtain ⟨-, hradixes, hchanges⟩ := conversions_keep_tokens Cache.genuine_empty hparse hview
      (hsource ▸ hnode) hplace
    rw [eq_of_beq hraw] at hradixes
    refine ⟨project, cache', hparse, hradixes.trans (by decide), fun action haction => ?_⟩
    obtain ⟨-, ⟨before, old, rest, hcuts⟩, hkeeps⟩ := hchanges action haction
    obtain ⟨htokens, -, hfound⟩ := hkeeps before old rest hcuts
    rw [htext] at hcuts htokens hfound
    -- There is no carriage return in the whole text.
    have hreturn : '\r' ∉ Position.lastLine before := by
      intro hmem
      obtain ⟨lines, hbefore, -⟩ := Position.exists_append_lastLine before
      have hline : '\r' ∈ text.toList := by
        rw [hcuts.text_eq, hbefore]
        simp [hmem]
      exact absurd hline (by decide)
    exact ⟨_, hfound hreturn, htokens⟩
  | _ => cases ht

end CodeAction

end MesonLens
