import Mathlib.Data.List.TakeWhile
import MesonLens.Analysis.Operator
import MesonLens.Proofs.Text.Offsets
import MesonLens.Proofs.Text.Utf8

/-!
# `MesonLens.Proofs.Analysis.Placeholders`: the placeholders of a format string

`placeholders` goes over the characters of a text. What it is to find can be told by the bytes of
the text alone: `Placeholder.Match` is a place where the bytes of `@name@` stand, whatever stands
around them, and `Placeholder.Leftmost` takes the first such place, then the first one behind it,
and so on.

A sign that opens no placeholder may close one or open the next, so it is passed alone
(`Placeholder.Leftmost.cons`), and a character that is not a sign has no byte of one, so it is
passed whole (`Placeholder.Leftmost.append`). So the two find the same
(`Placeholder.leftmost_placeholdersFrom`). `Placeholder.leftmost_iff` puts this together with where
the names are.
-/

set_option autoImplicit false

namespace MesonLens

namespace Placeholder

open Utf8 (encode IsAscii)

/-- A letter or `_`, and behind it also digits. Letters and digits are those of ASCII. -/
def IsName (name : List Char) : Prop :=
  ∃ first rest, name = first :: rest ∧ (first.isAlpha ∨ first = '_') ∧
    ∀ c ∈ rest, c.isAlphanum ∨ c = '_'

/-- The placeholder that names a variable. -/
def spelling (name : List Char) : List Char := '@' :: (name ++ ['@'])

/-- A placeholder stands somewhere in the bytes. What stands around it may be any bytes. -/
structure Match (bytes before : List UInt8) (name : List Char) (after : List UInt8) : Prop where
  isName : IsName name
  bytes_eq : bytes = before ++ (encode (spelling name) ++ after)

/-- The placeholders of bytes that start at an offset, each with the offset of its name: the first
one that there is, and then those of the bytes behind it. -/
inductive Leftmost : Nat → List UInt8 → List (Nat × String) → Prop where
  /-- There is none. -/
  | none {offset : Nat} {bytes : List UInt8} :
      (∀ before name after, ¬ Match bytes before name after) → Leftmost offset bytes []
  /-- None starts before this one. The search goes on behind its closing sign. -/
  | next {offset : Nat} {bytes before : List UInt8} {name : List Char} {after : List UInt8}
      {found : List (Nat × String)} :
      Match bytes before name after →
      (∀ before' name' after', Match bytes before' name' after' →
        before.length ≤ before'.length) →
      Leftmost (offset + before.length + (encode (spelling name)).length) after found →
      Leftmost offset bytes ((offset + before.length + 1, String.ofList name) :: found)

variable {offset : Nat} {bytes before after : List UInt8} {name cs : List Char}
  {found found' : List (Nat × String)}

/-- What stands before the first of some value, and what stands behind it, is told by the whole. -/
theorem append_cons_inj {α : Type} {a : α} {xs ys us vs : List α} (hxs : a ∉ xs) (hys : a ∉ ys)
    (h : xs ++ a :: us = ys ++ a :: vs) : xs = ys ∧ us = vs := by
  rcases List.append_eq_append_iff.mp h with ⟨more, rfl, hmore⟩ | ⟨more, rfl, hmore⟩
  · cases more with
    | nil => exact ⟨(List.append_nil xs).symm, (List.cons.inj hmore).2⟩
    | cons b more =>
      obtain ⟨rfl, -⟩ := List.cons.inj hmore
      simp at hys
  · cases more with
    | nil => exact ⟨List.append_nil ys, (List.cons.inj hmore).2.symm⟩
    | cons b more =>
      obtain ⟨rfl, -⟩ := List.cons.inj hmore
      simp at hxs

/-! ### Names -/

theorem isAscii_sign : IsAscii '@' := by decide

theorem encode_sign : String.utf8EncodeChar '@' = ['@'.val.toUInt8] :=
  Utf8.utf8EncodeChar_of_ascii isAscii_sign

theorem bounds_of_isAlpha {c : Char} (h : c.isAlpha) : 'A' ≤ c ∧ c ≤ 'Z' ∨ 'a' ≤ c ∧ c ≤ 'z' := by
  rcases Bool.or_eq_true_iff.mp h with hupper | hlower
  · exact .inl (of_decide_eq_true hupper)
  · exact .inr ((Bool.and_eq_true_iff.mp hlower).imp of_decide_eq_true of_decide_eq_true)

theorem isAscii_of_isAlphanum {c : Char} (h : c.isAlphanum) : IsAscii c := by
  have hle : ∀ {last : Char}, IsAscii last → c ≤ last → IsAscii c :=
    fun hlast hc => Nat.lt_of_le_of_lt hc hlast
  rcases Bool.or_eq_true_iff.mp h with halpha | hdigit
  · rcases bounds_of_isAlpha halpha with ⟨-, hupper⟩ | ⟨-, hlower⟩
    · exact hle (show IsAscii 'Z' by decide) hupper
    · exact hle (show IsAscii 'z' by decide) hlower
  · exact hle (show IsAscii '9' by decide) (Char.isDigit_iff_toNat.mp hdigit).2

theorem IsName.forall_mem (h : IsName name) : ∀ c ∈ name, isPlaceholderChar c = true := by
  obtain ⟨first, rest, rfl, hfirst, hrest⟩ := h
  intro c hc
  rcases List.mem_cons.mp hc with rfl | hc
  · rcases hfirst with halpha | rfl
    · simp [isPlaceholderChar, Char.isAlphanum, halpha]
    · decide
  · simpa [isPlaceholderChar] using hrest c hc

theorem IsName.isAscii (h : IsName name) : ∀ c ∈ name, IsAscii c := by
  intro c hc
  have hchar := h.forall_mem c hc
  rw [isPlaceholderChar, Bool.or_eq_true] at hchar
  rcases hchar with halphanum | hunderscore
  · exact isAscii_of_isAlphanum halphanum
  · obtain rfl : c = '_' := by simpa using hunderscore
    decide

theorem IsName.not_mem (h : IsName name) : '@' ∉ name := fun hmem =>
  absurd (h.forall_mem '@' hmem) (by decide)

theorem IsName.isAscii_spelling (h : IsName name) : ∀ c ∈ spelling name, IsAscii c := by
  intro c hc
  simp only [spelling, List.mem_cons, List.mem_append, List.not_mem_nil, or_false] at hc
  rcases hc with rfl | hc | rfl
  · exact isAscii_sign
  · exact h.isAscii c hc
  · exact isAscii_sign

theorem IsName.length_encode_spelling (h : IsName name) :
    (encode (spelling name)).length = 2 + name.length := by
  rw [Utf8.length_encode_of_ascii h.isAscii_spelling, spelling]
  simp only [List.length_cons, List.length_append, List.length_nil]
  omega

theorem IsName.isDigit_head {first : Char} {rest : List Char} (h : IsName (first :: rest)) :
    first.isDigit = false := by
  obtain ⟨_, _, heq, hfirst, -⟩ := h
  obtain ⟨rfl, -⟩ := List.cons.inj heq
  rcases hfirst with halpha | rfl
  · -- All digits stand before the letters.
    have hlate : '9' < first := by
      rcases bounds_of_isAlpha halpha with ⟨hupper, -⟩ | ⟨hlower, -⟩
      · exact Nat.lt_of_lt_of_le (show '9' < 'A' by decide) hupper
      · exact Nat.lt_of_lt_of_le (show '9' < 'a' by decide) hlower
    rw [Bool.eq_false_iff]
    exact fun hdigit => Nat.not_le.mpr hlate (Char.isDigit_iff_toNat.mp hdigit).2
  · decide

/-- A name is read up to the sign behind it. -/
theorem placeholderName?_eq_some_iff :
    placeholderName? cs = some name ↔ IsName name ∧ ∃ rest, cs = name ++ '@' :: rest := by
  constructor
  · -- The name is the longest run of characters that a name may have.
    intro h
    have hcs : cs.takeWhile isPlaceholderChar ++ cs.dropWhile isPlaceholderChar = cs :=
      List.takeWhile_append_dropWhile
    have hchars : ∀ c ∈ cs.takeWhile isPlaceholderChar, isPlaceholderChar c = true :=
      fun c hc => List.mem_takeWhile_imp hc
    unfold placeholderName? at h
    dsimp only at h
    split at h
    · next first tail rest hname hrest =>
      split at h
      · cases h
      · next hdigit =>
        cases h
        rw [hname] at hcs hchars ⊢
        rw [hrest] at hcs
        refine ⟨⟨first, tail, rfl, ?_, ?_⟩, rest, hcs.symm⟩
        · have hfirst := hchars first List.mem_cons_self
          simpa [isPlaceholderChar, Char.isAlphanum, hdigit] using hfirst
        · intro c hc
          simpa [isPlaceholderChar] using hchars c (List.mem_cons_of_mem _ hc)
    · cases h
  · -- The sign is not such a character, so the run ends before it.
    rintro ⟨hname, rest, rfl⟩
    have hsign : isPlaceholderChar '@' = false := by decide
    have htake : (name ++ '@' :: rest).takeWhile isPlaceholderChar = name := by
      rw [List.takeWhile_append_of_pos hname.forall_mem, List.takeWhile_cons, hsign]
      simp
    have hdrop : (name ++ '@' :: rest).dropWhile isPlaceholderChar = '@' :: rest := by
      rw [List.dropWhile_append_of_pos hname.forall_mem, List.dropWhile_cons, hsign]
      simp
    have hdigit := hname
    obtain ⟨first, tail, rfl, -⟩ := hname
    unfold placeholderName?
    rw [htake, hdrop]
    simp [hdigit.isDigit_head]

/-! ### Matches -/

/-- The bytes of a placeholder are its characters: a match is where characters begin and end. -/
theorem Match.exists_chars (h : Match (encode cs) before name after) :
    ∃ left right, cs = left ++ (spelling name ++ right) ∧ encode left = before ∧
      encode right = after :=
  Utf8.exists_chars (List.cons_ne_nil _ _) h.isName.isAscii_spelling h.bytes_eq

/-- A match behind the first byte is one of the other bytes. -/
theorem Match.of_cons {b b' : UInt8} (h : Match (b :: bytes) (b' :: before) name after) :
    Match bytes before name after :=
  ⟨h.isName, (List.cons.inj h.bytes_eq).2⟩

theorem Match.cons (b : UInt8) (h : Match bytes before name after) :
    Match (b :: bytes) (b :: before) name after :=
  ⟨h.isName, congrArg (b :: ·) h.bytes_eq⟩

/-- Every match starts with a sign. -/
theorem Match.head_eq {b : UInt8} (h : Match (b :: bytes) [] name after) :
    b = '@'.val.toUInt8 := by
  have heq := h.bytes_eq
  rw [spelling, Utf8.encode_cons, encode_sign] at heq
  exact (List.cons.inj heq).1

theorem not_match_nil : ¬ Match [] before name after := by
  intro h
  have heq := h.bytes_eq
  rw [spelling, Utf8.encode_cons, encode_sign] at heq
  simp at heq

/-- One placeholder stands at one place. -/
theorem Match.unique {name' : List Char} {after' : List UInt8} (h : Match bytes before name after)
    (h' : Match bytes before name' after') : name = name' ∧ after = after' := by
  have heq := List.append_cancel_left (h.bytes_eq.symm.trans h'.bytes_eq)
  simp only [spelling, Utf8.encode_cons, Utf8.encode_append, Utf8.encode_nil, encode_sign,
    List.cons_append, List.append_assoc, List.nil_append, List.cons.injEq, true_and] at heq
  have hsign : ∀ {name : List Char}, IsName name → '@'.val.toUInt8 ∉ encode name :=
    fun hname hmem => hname.not_mem (Utf8.mem_of_mem_encode isAscii_sign hmem)
  obtain ⟨hnames, hafter⟩ := append_cons_inj (hsign h.isName) (hsign h'.isName) heq
  exact ⟨Utf8.encode_inj.mp hnames, hafter⟩

/-! ### Passing bytes -/

/-- A byte at which no placeholder starts is passed. -/
theorem Leftmost.cons {b : UInt8} (hb : ∀ name after, ¬ Match (b :: bytes) [] name after)
    (h : Leftmost (offset + 1) bytes found) : Leftmost offset (b :: bytes) found := by
  cases h with
  | none hnone =>
    refine .none fun before name after hmatch => ?_
    cases before with
    | nil => exact hb name after hmatch
    | cons b' before => exact hnone before name after hmatch.of_cons
  | @next _ _ before name after found hmatch hfirst hrest =>
    have hmove : offset + 1 + before.length = offset + (b :: before).length := by
      simp only [List.length_cons]
      omega
    rw [hmove] at hrest ⊢
    refine .next (hmatch.cons b) (fun before' name' after' hmatch' => ?_) hrest
    cases before' with
    | nil => exact absurd hmatch' (hb name' after')
    | cons b' before' => exact Nat.succ_le_succ (hfirst before' name' after' hmatch'.of_cons)

/-- Bytes that are not signs are passed. -/
theorem Leftmost.append {passed : List UInt8} (hpassed : '@'.val.toUInt8 ∉ passed)
    (h : Leftmost (offset + passed.length) bytes found) :
    Leftmost offset (passed ++ bytes) found := by
  induction passed generalizing offset with
  | nil => exact h
  | cons b passed ih =>
    rw [List.mem_cons, not_or] at hpassed
    refine .cons (fun name after hmatch => hpassed.1 hmatch.head_eq.symm) (ih hpassed.2 ?_)
    rwa [Nat.add_assoc, Nat.add_comm 1]

/-- The search finds the leftmost placeholders of the bytes. -/
theorem leftmost_placeholdersFrom (offset : Nat) (cs : List Char) :
    Leftmost offset (encode cs) (placeholdersFrom offset cs) := by
  fun_induction placeholdersFrom offset cs with
  | case1 offset => exact .none fun _ _ _ => not_match_nil
  | case2 offset cs name hname ih =>
    -- The sign opens a placeholder, and nothing stands before it.
    obtain ⟨hisName, rest, rfl⟩ := placeholderName?_eq_some_iff.mp hname
    have hbytes : encode ('@' :: (name ++ '@' :: rest)) =
        [] ++ (encode (spelling name) ++ encode rest) := by
      simp [spelling]
    have hdrop : (name ++ '@' :: rest).drop (name.length + 1) = rest := by
      rw [← List.drop_drop, List.drop_left]
      rfl
    rw [hdrop] at ih ⊢
    refine .next ⟨hisName, hbytes⟩ (fun _ _ _ _ => Nat.zero_le _) ?_
    rwa [hisName.length_encode_spelling, ← Nat.add_assoc]
  | case3 offset cs hname ih =>
    -- A placeholder in the bytes that starts with this sign would be one of the characters.
    have hhead : ∀ name after, ¬ Match (encode ('@' :: cs)) [] name after := by
      intro name after hmatch
      obtain ⟨left, right, hcs, hleft, -⟩ := hmatch.exists_chars
      obtain rfl := Utf8.encode_eq_nil_iff.mp hleft
      have hcs : cs = name ++ '@' :: right := by simpa [spelling] using hcs
      rw [placeholderName?_eq_some_iff.mpr ⟨hmatch.isName, right, hcs⟩] at hname
      cases hname
    rw [Utf8.encode_cons, encode_sign] at hhead ⊢
    exact .cons hhead ih
  | case4 offset c cs hc ih =>
    -- A sign is a whole character and not a byte of another one.
    rw [Utf8.encode_cons]
    refine .append (fun hmem => hc (Utf8.eq_of_mem_utf8EncodeChar isAscii_sign hmem)) ?_
    rwa [String.length_utf8EncodeChar]

/-! ### What is found -/

/-- There are no other leftmost placeholders. -/
theorem Leftmost.unique (h : Leftmost offset bytes found) (h' : Leftmost offset bytes found') :
    found = found' := by
  induction h generalizing found' with
  | none hnone =>
    cases h' with
    | none => rfl
    | next hmatch => exact absurd hmatch (hnone _ _ _)
  | @next offset bytes before name after found hmatch hfirst hrest ih =>
    cases h' with
    | none hnone => exact absurd hmatch (hnone _ _ _)
    | @next _ _ before' name' after' found' hmatch' hfirst' hrest' =>
      -- Each starts no later than the other.
      have hlength : before.length = before'.length :=
        Nat.le_antisymm (hfirst _ _ _ hmatch') (hfirst' _ _ _ hmatch)
      obtain ⟨rfl, -⟩ := List.append_inj (hmatch.bytes_eq.symm.trans hmatch'.bytes_eq) hlength
      obtain ⟨rfl, rfl⟩ := hmatch.unique hmatch'
      rw [ih hrest']

/-- Every placeholder that is found stands in the bytes. -/
theorem Leftmost.exists_match (h : Leftmost offset bytes found) :
    ∀ m ∈ found, ∃ before name after, Match bytes before name after ∧
      m = (offset + before.length + 1, String.ofList name) := by
  induction h with
  | none => exact nofun
  | @next offset bytes before name after found hmatch _ _ ih =>
    intro m hm
    rcases List.mem_cons.mp hm with rfl | hm
    · exact ⟨before, name, after, hmatch, rfl⟩
    · -- What stands before it in the rest of the bytes has the first placeholder before it.
      obtain ⟨before', name', after', hmatch', rfl⟩ := ih m hm
      refine ⟨before ++ (encode (spelling name) ++ before'), name', after',
        ⟨hmatch'.isName, ?_⟩, ?_⟩
      · rw [hmatch.bytes_eq, hmatch'.bytes_eq, List.append_assoc, List.append_assoc]
      · rw [List.length_append, List.length_append, Nat.add_assoc offset, Nat.add_assoc offset,
          Nat.add_assoc before.length]

/-- The placeholders are found in the order in which they stand. -/
theorem Leftmost.pairwise_lt (h : Leftmost offset bytes found) :
    found.Pairwise (·.1 < ·.1) := by
  induction h with
  | none => exact .nil
  | @next offset bytes before name after found _ _ hrest ih =>
    refine .cons (fun m hm => ?_) ih
    obtain ⟨before', name', after', -, rfl⟩ := hrest.exists_match m hm
    have hpos : 0 < (encode (spelling name)).length := by
      rw [spelling, Utf8.encode_cons, encode_sign]
      exact Nat.succ_pos _
    show offset + before.length + 1 < _
    omega

/-- A placeholder that is found stands between whole characters, and its name is cut out by its
offset and size. -/
theorem slice?_of_match {text : String} (h : Match (encode text.toList) before name after) :
    Text.slice? text (before.length + 1)
        (before.length + 1 + (String.ofList name).utf8ByteSize) = some (String.ofList name) := by
  obtain ⟨left, right, htext, rfl, -⟩ := h.exists_chars
  have hsplit : text.toList = (left ++ ['@']) ++ (name ++ '@' :: right) := by
    simpa [spelling] using htext
  have hstart : byteLength (left ++ ['@']) = (encode left).length + 1 := by
    rw [← Utf8.length_encode, Utf8.encode_append, List.length_append]
    rfl
  have hslice := Text.slice?_append hsplit
  rw [byteLength_append (left ++ ['@']) name, hstart] at hslice
  rw [utf8ByteSize_ofList]
  exact hslice

/-- The placeholders of a text are the leftmost ones of its bytes, and no others. The offset of
each is greater than those before it, and its name is the stretch of the text that starts there,
both ends of which are between characters. -/
theorem leftmost_iff (text : String) :
    (∀ found, Leftmost 0 text.toUTF8.toList found ↔ found = placeholders text) ∧
      (placeholders text).Pairwise (·.1 < ·.1) ∧
      ∀ m ∈ placeholders text, Text.slice? text m.1 (m.1 + m.2.utf8ByteSize) = some m.2 := by
  rw [Utf8.toList_toUTF8]
  have hfound : Leftmost 0 (encode text.toList) (placeholders text) :=
    leftmost_placeholdersFrom 0 text.toList
  refine ⟨fun found => ⟨fun h => h.unique hfound, fun h => h ▸ hfound⟩, hfound.pairwise_lt, ?_⟩
  intro m hm
  obtain ⟨before, name, after, hmatch, rfl⟩ := hfound.exists_match m hm
  rw [Nat.zero_add]
  exact slice?_of_match hmatch

/-- The second sign closes nothing and opens a placeholder; the sign that closes it opens none. -/
theorem leftmost_iff_shared_signs :
    Leftmost 0 "é@1@a@b@".toUTF8.toList [(5, "a")] ∧ (5, "a") ∈ placeholders "é@1@a@b@" ∧
      Text.slice? "é@1@a@b@" 5 (5 + "a".utf8ByteSize) = some "a" := by
  have hfound : placeholders "é@1@a@b@" = [(5, "a")] := by decide +kernel
  have hmem : (5, "a") ∈ placeholders "é@1@a@b@" := by simp [hfound]
  obtain ⟨hleftmost, -, hslice⟩ := leftmost_iff "é@1@a@b@"
  exact ⟨(hleftmost _).mpr hfound.symm, hmem, hslice _ hmem⟩

end Placeholder

end MesonLens
