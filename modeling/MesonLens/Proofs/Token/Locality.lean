import MesonLens.Proofs.Token.Coverage
import MesonLens.Proofs.Token.Spelling

/-!
# `MesonLens.Proofs.Token.Locality`: how far the lexer looks

A piece of a text is told by its own characters and the one after them. What comes later does not
matter, and of the next character it matters only which letter or digit it is not
(`Lexer.StartsAlike`). So a name or a number can be written anew without a change to what stands
before or after it.

* `Lexer.piece_local`: a piece is the same before texts that start alike;
* `Lexer.piece_shift`, `Lexer.scan_shift`: a piece does not know where in the text it stands;
* `Lexer.Cut`, `Lexer.Cut.swap`: a place that the lexer comes to, which stays one when the rest of
  the text starts alike;
* `Lexer.comesTo_of_lexemes`: it comes to each lexeme;
* `Lexer.EndsBefore`, `Lexer.ReadsUpTo`: what comes after a name or a number does not go on with it;
* `Lexer.scan_respell`: a name or a number is written anew.
-/

set_option autoImplicit false

namespace MesonLens

namespace Lexer

/-- Both texts start with the same character or end at once, or both start with a letter or a
digit. -/
def StartsAlike (ys zs : List Char) : Prop :=
  ys.head? = zs.head? ∨
    (∃ y ∈ ys.head?, y.isAlphanum = true) ∧ ∃ z ∈ zs.head?, z.isAlphanum = true

variable {p q : Position} {c : Char} {xs ys zs : List Char}

theorem StartsAlike.append_left (h : StartsAlike ys zs) (xs : List Char) :
    StartsAlike (xs ++ ys) (xs ++ zs) := by
  cases xs with
  | nil => exact h
  | cons x xs => exact .inl rfl

/-- What starts with no letter or digit starts as the other one does. -/
theorem StartsAlike.head?_eq (h : StartsAlike ys zs)
    (hys : ∀ y ∈ ys.head?, y.isAlphanum = false) : ys.head? = zs.head? := by
  rcases h with h | ⟨⟨y, hy, halnum⟩, -⟩
  · exact h
  · rw [hys y hy] at halnum
    cases halnum

/-- A character that is no letter or digit starts both texts or none. -/
theorem StartsAlike.head?_eq_some_iff (h : StartsAlike ys zs) {d : Char}
    (hd : d.isAlphanum = false) : ys.head? = some d ↔ zs.head? = some d := by
  rcases h with h | ⟨⟨y, hy, hyalnum⟩, z, hz, hzalnum⟩
  · rw [h]
  · rw [Option.mem_def.mp hy, Option.mem_def.mp hz]
    constructor
    · rintro ⟨⟩
      rw [hd] at hyalnum
      cases hyalnum
    · rintro ⟨⟩
      rw [hd] at hzalnum
      cases hzalnum

/-! ### Runs of characters -/

theorem takeWhile_append_stop {P : Char → Bool} (hxs : ∀ x ∈ xs, P x = true)
    (hys : ∀ y ∈ ys.head?, P y = false) : (xs ++ ys).takeWhile P = xs := by
  rw [List.takeWhile_append_of_pos hxs]
  cases ys with
  | nil => exact List.append_nil xs
  | cons y ys =>
    have hy := hys y rfl
    rw [List.takeWhile_cons_of_neg (by simp [hy]), List.append_nil]

/-- A run that ends where `ys` starts. -/
theorem of_length_takeWhile {P : Char → Bool} (h : ((xs ++ ys).takeWhile P).length = xs.length) :
    (∀ x ∈ xs, P x = true) ∧ ∀ y ∈ ys.head?, P y = false := by
  induction xs with
  | nil =>
    refine ⟨nofun, fun y hy => ?_⟩
    cases ys with
    | nil => cases hy
    | cons z ys =>
      cases hy
      by_contra hz
      rw [List.nil_append, List.takeWhile_cons_of_pos (by simpa using hz)] at h
      cases h
  | cons x xs ih =>
    by_cases hx : P x = true
    · rw [List.cons_append, List.takeWhile_cons_of_pos hx, List.length_cons, List.length_cons,
        Nat.add_right_cancel_iff] at h
      obtain ⟨hxs, hys⟩ := ih h
      exact ⟨List.forall_mem_cons.mpr ⟨hx, hxs⟩, hys⟩
    · rw [List.cons_append, List.takeWhile_cons_of_neg hx] at h
      cases h

/-- A run of bounded length that ends where `ys` starts. -/
theorem takeWhile_take_local {P : Char → Bool} {w : Nat}
    (h : (((xs ++ ys).take w).takeWhile P).length = xs.length) (hhead : ys.head? = zs.head?) :
    ((xs ++ zs).take w).takeWhile P = ((xs ++ ys).take w).takeWhile P := by
  induction xs generalizing w with
  | nil =>
    cases w with
    | zero => simp
    | succ w =>
      cases ys with
      | nil =>
        cases zs with
        | nil => rfl
        | cons z zs => cases hhead
      | cons y ys =>
        cases zs with
        | nil => cases hhead
        | cons z zs =>
          cases hhead
          -- The run is empty, so the next character does not go on with it.
          have hnone := List.eq_nil_of_length_eq_zero h
          have hy : ¬ P y = true := by
            intro hy
            rw [List.nil_append, List.take_succ_cons, List.takeWhile_cons_of_pos hy] at hnone
            cases hnone
          simp [hy]
  | cons x xs ih =>
    cases w with
    | zero => simp
    | succ w =>
      by_cases hx : P x = true
      · simp only [List.cons_append, List.take_succ_cons, List.takeWhile_cons_of_pos hx,
          List.length_cons, Nat.add_right_cancel_iff] at h ⊢
        rw [ih h]
      · simp [hx]

/-! ### Escapes and strings -/

theorem hexEscape_taken (width : Nat) (cs : List Char) :
    (hexEscape width cs).taken =
      ((cs.take width).takeWhile fun c => (digit? 16 c).isSome).length + 1 := by
  unfold hexEscape
  dsimp only
  split <;> rfl

theorem Escape.taken_pos (c : Char) (cs : List Char) : 0 < (Escape.read (c :: cs)).taken := by
  rw [Escape.read]
  split
  · exact Nat.one_pos
  split
  · next hoctal => simp [octalEscape, hoctal]
  split
  · exact hexEscape_taken 2 cs ▸ Nat.succ_pos _
  split
  · exact hexEscape_taken 4 cs ▸ Nat.succ_pos _
  split
  · exact hexEscape_taken 8 cs ▸ Nat.succ_pos _
  · exact Nat.one_pos

/-- Of what follows an escape only the next character matters. -/
theorem Escape.read_local (h : (Escape.read (xs ++ ys)).taken = xs.length)
    (hhead : ys.head? = zs.head?) : Escape.read (xs ++ zs) = Escape.read (xs ++ ys) := by
  have hhex : ∀ width es, (hexEscape width (es ++ ys)).taken = es.length + 1 →
      hexEscape width (es ++ zs) = hexEscape width (es ++ ys) := by
    intro width es htaken
    rw [hexEscape_taken, Nat.add_right_cancel_iff] at htaken
    rw [hexEscape, hexEscape, takeWhile_take_local htaken hhead]
  cases xs with
  | nil =>
    cases ys with
    | nil =>
      cases zs with
      | nil => rfl
      | cons z zs => cases hhead
    | cons y ys => exact absurd h (Escape.taken_pos y ys).ne'
  | cons x xs =>
    -- The first character tells the kind of the escape, and it is the same one in both texts. Only
    -- the digits after it could differ.
    simp only [List.cons_append, Escape.read, List.length_cons] at h ⊢
    split
    · rfl
    · next hsimple =>
      simp only [hsimple] at h
      split
      · next hoctal =>
        rw [if_pos hoctal] at h
        rw [← List.cons_append] at h
        exact congrArg (fun digits : List Char => Escape.mk digits.length
          ((digits? 8 0 digits).bind char?).toList true) (takeWhile_take_local h hhead)
      · next hoctal =>
        rw [if_neg hoctal] at h
        split
        · next hx =>
          rw [if_pos hx] at h
          exact hhex 2 xs h
        · next hx =>
          rw [if_neg hx] at h
          split
          · next hu =>
            rw [if_pos hu] at h
            exact hhex 4 xs h
          · next hu =>
            rw [if_neg hu] at h
            split
            · next hU =>
              rw [if_pos hU] at h
              exact hhex 8 xs h
            · rfl

/-- A string takes nothing only where a line or the text ends. -/
theorem head?_of_single_taken (h : (Literal.single p ys).taken = 0) :
    ∀ y ∈ ys.head?, y = '\n' := by
  intro y hy
  cases ys with
  | nil => cases hy
  | cons d ys =>
    cases hy
    by_contra hne
    rw [Literal.single, if_neg hne] at h
    split at h
    · cases h
    split at h
    · cases h
    · cases h

/-- Of what follows a string only the next character matters, and that only when the string is not
closed. -/
theorem single_local (hstart : StartsAlike ys zs) : ∀ (xs : List Char) (p : Position),
    (Literal.single p (xs ++ ys)).taken = xs.length →
      Literal.single p (xs ++ zs) = Literal.single p (xs ++ ys)
  | [], p, h => by
    have hline := head?_of_single_taken h
    have hhead : ys.head? = zs.head? := hstart.head?_eq fun y hy => by rw [hline y hy]; rfl
    cases ys with
    | nil =>
      cases zs with
      | nil => rfl
      | cons z zs => cases hhead
    | cons y ys =>
      cases zs with
      | nil => cases hhead
      | cons z zs =>
        cases hhead
        have hy := hline y rfl
        rw [List.nil_append, List.nil_append, Literal.single, Literal.single, if_pos hy, if_pos hy]
  | x :: xs, p, h => by
    rw [List.cons_append, List.cons_append, Literal.single, Literal.single]
    rw [List.cons_append, Literal.single, List.length_cons] at h
    split
    · rfl
    · next hline =>
      rw [if_neg hline] at h
      split
      · rfl
      · next hquote =>
        rw [if_neg hquote] at h
        split
        · next hescape =>
          rw [if_pos hescape] at h
          dsimp only at h
          -- The escape and the rest of the string make up the characters up to `ys`.
          obtain ⟨escape, rest, hxs, htaken⟩ : ∃ escape rest, xs = escape ++ rest ∧
              (Escape.read (xs ++ ys)).taken = escape.length :=
            ⟨xs.take (Escape.read (xs ++ ys)).taken, xs.drop (Escape.read (xs ++ ys)).taken,
              (List.take_append_drop _ _).symm, by rw [List.length_take]; omega⟩
          have htake : ∀ ws, (xs ++ ws).take escape.length = escape := by simp [hxs]
          have hdrop : ∀ ws, (xs ++ ws).drop escape.length = rest ++ ws := by simp [hxs]
          have hlength : xs.length = escape.length + rest.length := by simp [hxs]
          rw [htaken, htake, hdrop] at h
          have hmore : (Literal.single ((p.next x).after escape) (rest ++ ys)).taken =
              rest.length := by omega
          have hread : Escape.read (xs ++ zs) = Escape.read (xs ++ ys) := by
            rw [hxs, List.append_assoc] at htaken ⊢
            rw [List.append_assoc]
            refine Escape.read_local htaken ?_
            cases rest with
            | nil =>
              exact hstart.head?_eq fun y hy => by rw [head?_of_single_taken hmore y hy]; rfl
            | cons d rest => rfl
          simp only [hread, htaken, htake, hdrop, single_local hstart rest _ hmore]
        · next hescape =>
          rw [if_neg hescape] at h
          dsimp only at h
          rw [single_local hstart xs (p.next x) (by omega)]
  termination_by xs => xs.length
  decreasing_by all_goals simp only [List.length_cons]; omega

/-- A string over several lines goes on to its closing quotes, whatever follows these, or to the end
of the text. -/
theorem multiline_spec (cs : List Char) :
    (Literal.multiline cs).closed = false ∧ (Literal.multiline cs).taken = cs.length ∨
      (Literal.multiline cs).closed = true ∧ ∃ body rest,
        cs = body ++ '\'' :: '\'' :: '\'' :: rest ∧
        (Literal.multiline cs).taken = body.length + 3 ∧
        ∀ rest', Literal.multiline (body ++ '\'' :: '\'' :: '\'' :: rest') =
          Literal.multiline cs := by
  fun_induction Literal.multiline cs with
  | case1 => exact .inl ⟨rfl, rfl⟩
  | case2 rest => exact .inr ⟨rfl, [], rest, rfl, rfl, fun _ => rfl⟩
  | case3 c cs hopen more ih =>
    rcases ih with ⟨hclosed, htaken⟩ | ⟨hclosed, body, rest, hcs, htaken, hsame⟩
    · exact .inl ⟨hclosed, congrArg (· + 1) htaken⟩
    · refine .inr ⟨hclosed, c :: body, rest, by rw [hcs]; rfl, ?_, fun rest' => ?_⟩
      · exact (congrArg (· + 1) htaken).trans (Nat.add_right_comm _ _ _)
      · -- The quotes do not close the string any earlier.
        have hopen' : ∀ tail, c = '\'' → body ++ '\'' :: '\'' :: '\'' :: rest' =
            '\'' :: '\'' :: tail → False := by
          intro tail hc htail
          match body, hcs, htail with
          | [], hcs, _ => exact hopen _ hc hcs
          | [d], hcs, htail =>
            cases (List.cons.inj htail).1
            exact hopen _ hc hcs
          | d :: e :: body, hcs, htail =>
            cases (List.cons.inj htail).1
            cases (List.cons.inj (List.cons.inj htail).2).1
            exact hopen _ hc hcs
        rw [List.cons_append, Literal.multiline, hsame rest']
        exact hopen'

theorem multiline_local (hstart : StartsAlike ys zs)
    (h : (Literal.multiline (xs ++ ys)).taken = xs.length) :
    Literal.multiline (xs ++ zs) = Literal.multiline (xs ++ ys) := by
  rcases multiline_spec (xs ++ ys) with ⟨-, htaken⟩ | ⟨-, body, rest, hcs, htaken, hsame⟩
  · -- The string goes on to the end of the text.
    have hys : ys = [] := by
      rw [h, List.length_append] at htaken
      exact List.eq_nil_of_length_eq_zero (by omega)
    subst hys
    have hzs : zs = [] := by
      have hhead : ([] : List Char).head? = zs.head? := hstart.head?_eq nofun
      exact List.head?_eq_none_iff.mp hhead.symm
    rw [hzs]
  · have hxs : xs = body ++ ['\'', '\'', '\''] := by
      have hcs' : xs ++ ys = body ++ ['\'', '\'', '\''] ++ rest := by simpa using hcs
      exact (List.append_inj hcs' (by simp; omega)).1
    rw [← hsame zs, hxs]
    simp

theorem stringPiece_lead_le (p inside : Position) (format : Bool) (lead : Nat) (cs : List Char) :
    lead ≤ (stringPiece p inside format lead cs).more := by
  unfold stringPiece
  split
  · exact (Nat.le_add_right _ _).trans (Nat.le_add_right _ _)
  · exact Nat.le_add_right _ _

theorem stringPiece_local (hstart : StartsAlike ys zs) {inside : Position} {format : Bool}
    {lead : Nat} (h : (stringPiece p inside format lead (xs ++ ys)).more = lead + xs.length) :
    stringPiece p inside format lead (xs ++ zs) = stringPiece p inside format lead (xs ++ ys) := by
  have hquote := hstart.head?_eq_some_iff (d := '\'') rfl
  by_cases hopen : ∃ body, xs ++ ys = '\'' :: '\'' :: body
  · obtain ⟨body, hbody⟩ := hopen
    rw [hbody, stringPiece] at h
    dsimp only at h
    rcases xs with _ | ⟨a, _ | ⟨b, xs⟩⟩
    · simp at h
      omega
    · simp at h
      omega
    · obtain ⟨rfl, rfl, rfl⟩ : a = '\'' ∧ b = '\'' ∧ xs ++ ys = body := by simpa using hbody
      have htaken : (Literal.multiline (xs ++ ys)).taken = xs.length := by
        simp only [List.length_cons] at h
        omega
      have htake : ∀ ws, (xs ++ ws).take xs.length = xs := by simp
      simp only [List.cons_append, stringPiece, multiline_local hstart htaken, htaken,
        Nat.add_comm 2, List.take_succ_cons, htake]
  · have hplain : ∀ body, xs ++ ys = '\'' :: '\'' :: body → False :=
      fun body hbody => hopen ⟨body, hbody⟩
    rw [stringPiece] at h
    · have htaken : (Literal.single inside (xs ++ ys)).taken = xs.length := Nat.add_left_cancel h
      -- The other text does not start with two quotes either: the second of them would be the next
      -- character, which is alike.
      have hplain' : ∀ body, xs ++ zs = '\'' :: '\'' :: body → False := by
        intro body hbody
        rcases xs with _ | ⟨x, _ | ⟨x', xs⟩⟩
        · have hhead : ys.head? = some '\'' := hquote.mpr (congrArg List.head? hbody)
          exact absurd (head?_of_single_taken htaken _ hhead) (by decide)
        · obtain ⟨rfl, hzs⟩ := List.cons.inj hbody
          obtain ⟨rest, hys⟩ := List.head?_eq_some_iff.mp
            (hquote.mpr (congrArg List.head? hzs))
          exact hplain rest (by rw [hys]; rfl)
        · obtain ⟨rfl, hxs⟩ := List.cons.inj hbody
          obtain ⟨rfl, -⟩ := List.cons.inj hxs
          exact hplain _ rfl
      have htake : ∀ ws, (xs ++ ws).take xs.length = xs := by simp
      rw [stringPiece, stringPiece]
      · simp only [single_local hstart xs inside htaken, htaken, htake]
      · exact hplain
      · exact hplain'
    · exact hplain

/-! ### Numbers and operators -/

theorem radixOf_of_stops (hys : ∀ y ∈ ys.head?, y.isAlphanum = false) :
    radixOf c ys = (10, 0) := by
  unfold radixOf
  split
  · next d rest =>
    have hd := hys d rfl
    have hne : ∀ m : Char, m.isAlphanum = true → d ≠ m := by
      rintro m hm rfl
      rw [hm] at hd
      cases hd
    simp [hne 'x' rfl, hne 'X' rfl, hne 'o' rfl, hne 'O' rfl, hne 'b' rfl, hne 'B' rfl]
  · rfl

/-- One character after the first tells the radix. -/
theorem radixOf_cons (c d : Char) (cs ds : List Char) :
    radixOf c (d :: cs) = radixOf c (d :: ds) := by
  by_cases hc : c = '0'
  · subst hc
    rfl
  · have hten : ∀ es, radixOf c es = (10, 0) := by
      intro es
      unfold radixOf
      split
      · exact absurd rfl hc
      · rfl
    rw [hten, hten]

theorem radixOf_mark_le (c : Char) (cs : List Char) : (radixOf c cs).2 ≤ (c :: cs).length := by
  unfold radixOf
  split
  · simp only [List.length_cons]
    split
    · omega
    split
    · omega
    split
    · omega
    · omega
  · exact Nat.zero_le _

theorem isAlphanum_of_mem_mark (hc : c.isAlphanum = true) (cs : List Char) :
    ∀ d ∈ (c :: cs).take (radixOf c cs).2, d.isAlphanum = true := by
  unfold radixOf
  split
  · next d rest =>
    have hpair : d.isAlphanum = true → ∀ e ∈ ['0', d], e.isAlphanum = true :=
      fun hd => List.forall_mem_cons.mpr ⟨hc, List.forall_mem_singleton.mpr hd⟩
    split
    · next hd => exact hpair (by rcases hd with rfl | rfl <;> rfl)
    split
    · next hd => exact hpair (by rcases hd with rfl | rfl <;> rfl)
    split
    · next hd => exact hpair (by rcases hd with rfl | rfl <;> rfl)
    · exact nofun
  · exact nofun

/-- A number that ends where `ys` starts. -/
theorem numberPiece_eq {radix mark : Nat} (hradix : radixOf c (xs ++ ys) = (radix, mark))
    (hmark : mark ≤ (c :: xs).length) (hdigits : ∀ d ∈ (c :: xs).drop mark, d.isAlphanum = true)
    (hys : ∀ y ∈ ys.head?, y.isAlphanum = false) :
    numberPiece p c (xs ++ ys) = match integer? radix ((c :: xs).drop mark) with
      | some value => { more := xs.length, token := some (.integer value) }
      | none =>
        { more := xs.length
          token := some (.integer 0)
          errors := [⟨.badInteger (String.ofList (c :: xs)), ⟨p, p.after (c :: xs)⟩⟩] } := by
  have hdrop : ((c :: (xs ++ ys)).drop mark).takeWhile Char.isAlphanum = (c :: xs).drop mark := by
    rw [← List.cons_append, List.drop_append_of_le_length hmark, takeWhile_append_stop hdigits hys]
  have htake : (c :: (xs ++ ys)).take (mark + ((c :: xs).drop mark).length) = c :: xs := by
    rw [List.length_drop, Nat.add_sub_cancel' hmark, ← List.cons_append, List.take_left]
  unfold numberPiece
  rw [hradix]
  dsimp only
  rw [hdrop, htake]
  rfl

/-- A number ends before the first character that is no letter or digit, and what comes after does
not matter. -/
theorem numberPiece_local (hc : c.isAlphanum = true)
    (h : (numberPiece p c (xs ++ ys)).more = xs.length) :
    (∀ d ∈ c :: xs, d.isAlphanum = true) ∧ (∀ y ∈ ys.head?, y.isAlphanum = false) ∧
      ∀ zs, (∀ z ∈ zs.head?, z.isAlphanum = false) →
        numberPiece p c (xs ++ zs) = numberPiece p c (xs ++ ys) := by
  obtain ⟨radix, mark, hradix⟩ : ∃ radix mark, radixOf c (xs ++ ys) = (radix, mark) := ⟨_, _, rfl⟩
  have hle : mark ≤ (c :: (xs ++ ys)).length := by
    have hle := radixOf_mark_le c (xs ++ ys)
    rwa [hradix] at hle
  -- The mark and the digits behind it are all that is taken.
  have hlength : mark + (((c :: (xs ++ ys)).drop mark).takeWhile Char.isAlphanum).length =
      (c :: xs).length := by
    have hrun : (((c :: (xs ++ ys)).drop mark).takeWhile Char.isAlphanum).length ≤
        (c :: (xs ++ ys)).length - mark := by
      rw [← List.length_drop]
      exact (List.takeWhile_sublist _).length_le
    have hpos : mark = 0 →
        0 < (((c :: (xs ++ ys)).drop mark).takeWhile Char.isAlphanum).length := by
      rintro rfl
      simp [hc]
    have hmore : (numberPiece p c (xs ++ ys)).more =
        mark + (((c :: (xs ++ ys)).drop mark).takeWhile Char.isAlphanum).length - 1 := by
      unfold numberPiece
      rw [hradix]
      dsimp only
      split <;> rw [List.length_take, Nat.min_eq_left (by omega)]
    rw [List.length_cons]
    omega
  have hmark : mark ≤ (c :: xs).length := by omega
  have hstops : (((c :: xs).drop mark ++ ys).takeWhile Char.isAlphanum).length =
      ((c :: xs).drop mark).length := by
    rw [← List.drop_append_of_le_length hmark, List.length_drop, List.cons_append]
    omega
  obtain ⟨hdigits, hys⟩ := of_length_takeWhile hstops
  have hletters : ∀ d ∈ (c :: xs).take mark, d.isAlphanum = true := by
    have hletters := isAlphanum_of_mem_mark hc (xs ++ ys)
    rwa [hradix, ← List.cons_append, List.take_append_of_le_length hmark] at hletters
  refine ⟨?_, hys, fun zs hzs => ?_⟩
  · rw [← List.take_append_drop mark (c :: xs)]
    exact List.forall_mem_append.mpr ⟨hletters, hdigits⟩
  -- The mark shows in the first two characters. Where the second one is not taken it stops the
  -- number in both texts.
  have hradix' : radixOf c (xs ++ zs) = (radix, mark) := by
    rw [← hradix]
    cases xs with
    | nil => exact (radixOf_of_stops hzs).trans (radixOf_of_stops hys).symm
    | cons x xs => exact radixOf_cons c x (xs ++ zs) (xs ++ ys)
  rw [numberPiece_eq hradix hmark hdigits hys, numberPiece_eq hradix' hmark hdigits hzs]

theorem eq_of_operator2? {d : Char} {token : Token} (h : operator2? c d = some token) :
    d = '=' := by
  unfold operator2? at h
  split at h
  case h_10 => cases h
  all_goals rfl

theorem operatorPiece_local (hstart : StartsAlike ys zs)
    (h : (operatorPiece p c (xs ++ ys)).more = xs.length) :
    operatorPiece p c (xs ++ zs) = operatorPiece p c (xs ++ ys) := by
  cases xs with
  | cons x xs => rfl
  | nil =>
    -- No operator of two characters was found, so there is none in the other text either.
    have hequals := hstart.head?_eq_some_iff (d := '=') rfl
    have hnone : ys.head?.bind (operator2? c) = none := by
      cases htwo : ys.head?.bind (operator2? c) with
      | none => rfl
      | some token =>
        rw [List.nil_append, operatorPiece, htwo] at h
        cases h
    have hnone' : zs.head?.bind (operator2? c) = none := by
      cases htwo : zs.head?.bind (operator2? c) with
      | none => rfl
      | some token =>
        obtain ⟨d, hd, htoken⟩ := Option.bind_eq_some_iff.mp htwo
        obtain rfl := eq_of_operator2? htoken
        rw [hequals.mpr hd, Option.bind_some, htoken] at hnone
        cases hnone
    rw [List.nil_append, List.nil_append, operatorPiece, operatorPiece, hnone, hnone']

/-! ### Pieces -/

/-- A piece is told by its characters and the one after them. -/
theorem piece_local (hstart : StartsAlike ys zs) (h : (piece p c (xs ++ ys)).more = xs.length) :
    piece p c (xs ++ zs) = piece p c (xs ++ ys) := by
  have hquote : (xs ++ ys).head? = some '\'' ↔ (xs ++ zs).head? = some '\'' :=
    (hstart.append_left xs).head?_eq_some_iff rfl
  unfold piece at h ⊢
  by_cases hline : c = '\n'
  · simp only [if_pos hline]
  simp only [if_neg hline] at h ⊢
  by_cases hblank : c = ' ' ∨ c = '\t' ∨ c = '\r'
  · simp only [if_pos hblank]
  simp only [if_neg hblank] at h ⊢
  by_cases hcomment : c = '#'
  · simp only [if_pos hcomment] at h ⊢
    obtain ⟨hxs, hys⟩ := of_length_takeWhile h
    have hhead : ys.head? = zs.head? := hstart.head?_eq fun y hy => by
      have hy : y = '\n' := by simpa using hys y hy
      rw [hy]
      rfl
    rw [takeWhile_append_stop hxs hys, takeWhile_append_stop hxs (hhead ▸ hys)]
  simp only [if_neg hcomment] at h ⊢
  by_cases hopen : c = '\''
  · simp only [if_pos hopen] at h ⊢
    exact stringPiece_local hstart (h.trans (Nat.zero_add _).symm)
  simp only [if_neg hopen] at h ⊢
  by_cases hformat : c = 'f' ∧ (xs ++ ys).head? = some '\''
  · have hformat' : c = 'f' ∧ (xs ++ zs).head? = some '\'' := ⟨hformat.1, hquote.mp hformat.2⟩
    simp only [if_pos hformat, if_pos hformat'] at h ⊢
    cases xs with
    | nil =>
      -- The mark and the quote are two characters.
      have hle := stringPiece_lead_le p ((p.next c).next '\'') true 1 ys.tail
      rw [List.nil_append] at h
      rw [h] at hle
      cases hle
    | cons x xs => exact stringPiece_local hstart (h.trans (Nat.add_comm _ _))
  have hformat' : ¬ (c = 'f' ∧ (xs ++ zs).head? = some '\'') :=
    fun hz => hformat ⟨hz.1, hquote.mpr hz.2⟩
  simp only [if_neg hformat, if_neg hformat'] at h ⊢
  by_cases hdigit : c.isDigit = true
  · simp only [if_pos hdigit] at h ⊢
    have halnum : c.isAlphanum = true := by rw [Char.isAlphanum, hdigit, Bool.or_true]
    obtain ⟨-, hys, hsame⟩ := numberPiece_local halnum h
    exact hsame zs (hstart.head?_eq hys ▸ hys)
  simp only [if_neg hdigit] at h ⊢
  by_cases hword : startsWord c = true
  · simp only [if_pos hword] at h ⊢
    obtain ⟨hxs, hys⟩ := of_length_takeWhile h
    have hhead : ys.head? = zs.head? := hstart.head?_eq fun y hy => by
      have hy := hys y hy
      rw [continuesWord, Bool.or_eq_false_iff] at hy
      exact hy.1
    rw [takeWhile_append_stop hxs hys, takeWhile_append_stop hxs (hhead ▸ hys)]
  simp only [if_neg hword] at h ⊢
  exact operatorPiece_local hstart h

/-! ### Other places -/

/-- The pieces differ at most in where their errors are put. -/
structure Piece.Same (a b : Piece) : Prop where
  more : a.more = b.more
  token : a.token = b.token
  errors : a.errors.length = b.errors.length

/-- The strings differ at most in where their errors are put. -/
structure Literal.Same (a b : Literal) : Prop where
  taken : a.taken = b.taken
  value : a.value = b.value
  closed : a.closed = b.closed
  errors : a.errors.length = b.errors.length

theorem single_shift (p q : Position) (cs : List Char) :
    (Literal.single p cs).Same (Literal.single q cs) := by
  fun_induction Literal.single p cs generalizing q with
  | case1 p =>
    rw [Literal.single]
    exact ⟨rfl, rfl, rfl, rfl⟩
  | case2 p cs =>
    rw [Literal.single, if_pos rfl]
    exact ⟨rfl, rfl, rfl, rfl⟩
  | case3 p cs hline =>
    rw [Literal.single, if_neg hline, if_pos rfl]
    exact ⟨rfl, rfl, rfl, rfl⟩
  | case4 p cs escape hline hquote start stop more ih =>
    obtain ⟨htaken, hvalue, hclosed, herrors⟩ :=
      ih ((q.next '\\').after (cs.take escape.taken))
    rw [Literal.single, if_neg hline, if_neg hquote, if_pos rfl]
    refine ⟨by rw [htaken], by rw [hvalue], hclosed, ?_⟩
    dsimp only
    split
    · exact herrors
    · exact congrArg (· + 1) herrors
  | case5 p c cs hline hquote hescape more ih =>
    obtain ⟨htaken, hvalue, hclosed, herrors⟩ := ih (q.next c)
    rw [Literal.single, if_neg hline, if_neg hquote, if_neg hescape]
    exact ⟨by rw [htaken], by rw [hvalue], hclosed, herrors⟩

theorem stringPiece_shift (p q inside inside' : Position) (format : Bool) (lead : Nat)
    (cs : List Char) :
    (stringPiece p inside format lead cs).Same (stringPiece q inside' format lead cs) := by
  unfold stringPiece
  split
  · refine ⟨rfl, rfl, ?_⟩
    dsimp only
    split <;> rfl
  · obtain ⟨htaken, hvalue, hclosed, herrors⟩ := single_shift inside inside' cs
    refine ⟨congrArg (lead + ·) htaken,
      congrArg (fun value => some (Token.string (String.ofList value) format false)) hvalue, ?_⟩
    dsimp only
    rw [List.length_append, List.length_append, herrors, hclosed]
    split <;> rfl

/-- Where a text stands does not matter for the piece at its head. -/
theorem piece_shift (p q : Position) (c : Char) (cs : List Char) :
    (piece p c cs).Same (piece q c cs) := by
  unfold piece
  split
  · exact ⟨rfl, rfl, rfl⟩
  split
  · exact ⟨rfl, rfl, rfl⟩
  split
  · exact ⟨rfl, rfl, rfl⟩
  split
  · exact stringPiece_shift ..
  split
  · exact stringPiece_shift ..
  split
  · unfold numberPiece
    dsimp only
    split <;> exact ⟨rfl, rfl, rfl⟩
  split
  · exact ⟨rfl, rfl, rfl⟩
  · unfold operatorPiece
    split
    · exact ⟨rfl, rfl, rfl⟩
    · split <;> exact ⟨rfl, rfl, rfl⟩

/-- Where a text stands does not matter for its tokens. -/
theorem scan_shift (p q : Position) (cs : List Char) :
    (scan p cs).lexemes.map Lexeme.token = (scan q cs).lexemes.map Lexeme.token ∧
      (scan p cs).errors.length = (scan q cs).errors.length := by
  fun_induction scan p cs generalizing q with
  | case1 p =>
    rw [scan]
    exact ⟨rfl, rfl⟩
  | case2 p c cs head taken stop rest ih =>
    obtain ⟨hmore, htoken, herrors⟩ := piece_shift p q c cs
    obtain ⟨hlexemes, hrest⟩ := ih (q.after taken)
    have hhead : head = piece p c cs := rfl
    rw [scan, ← hmore, ← htoken, ← hhead]
    refine ⟨?_, ?_⟩
    · cases head.token with
      | some token => exact congrArg (token :: ·) hlexemes
      | none => exact hlexemes
    · rw [List.length_append, List.length_append, hrest, herrors]

/-! ### Piece after piece -/

/-- When `rest` follows, the lexer passes `before` in whole pieces, with these lexemes and
errors. -/
inductive Cut : Position → List Char → List Char → List Lexeme → List SyntaxError → Prop
  | done (p : Position) (rest : List Char) : Cut p [] rest [] []
  | step {p : Position} {c : Char} {taken before rest : List Char} {ls : List Lexeme}
      {es : List SyntaxError} (head : Piece) (piece : piece p c (taken ++ (before ++ rest)) = head)
      (more : head.more = taken.length) (cut : Cut (p.after (c :: taken)) before rest ls es) :
      Cut p (c :: taken ++ before) rest
        ((head.token.map fun token =>
          Lexeme.mk token ⟨p, p.after (c :: taken)⟩ (String.ofList (c :: taken))).toList ++ ls)
        (head.errors ++ es)

namespace Cut

variable {before rest rest' : List Char} {ls : List Lexeme} {es : List SyntaxError}

/-- What is read before does not depend on what follows. -/
theorem swap (h : Cut p before rest ls es) (hstart : StartsAlike rest rest') :
    Cut p before rest' ls es := by
  induction h with
  | done p rest => exact .done p rest'
  | @step p c taken before rest ls es head hpiece hmore _ ih =>
    refine .step head ?_ hmore (ih hstart)
    rw [← hpiece]
    exact piece_local (hstart.append_left before) (by rw [hpiece, hmore])

theorem scan_eq (h : Cut p before rest ls es) :
    scan p (before ++ rest) =
      { lexemes := ls ++ (scan (p.after before) rest).lexemes
        errors := es ++ (scan (p.after before) rest).errors } := by
  induction h with
  | done p rest => rfl
  | @step p c taken before rest ls es head hpiece hmore _ ih =>
    rw [List.append_assoc, List.cons_append, scan, hpiece, hmore, List.take_left, List.drop_left,
      ih, ← Position.after_append]
    cases head.token with
    | none => simp
    | some token => simp

end Cut

/-- The lexer comes to stand right before the lexeme, with the lexemes `ls` behind it. -/
def ComesTo (p : Position) (cs : List Char) (ls : List Lexeme) (l : Lexeme) : Prop :=
  ∃ before c rest es, cs = before ++ c :: rest ∧ Cut p before (c :: rest) ls es ∧
    (piece (p.after before) c rest).token = some l.token ∧
    l = ⟨l.token, ⟨p.after before,
      p.after (before ++ c :: rest.take (piece (p.after before) c rest).more)⟩,
      String.ofList (c :: rest.take (piece (p.after before) c rest).more)⟩

/-- The lexer passes a piece first. -/
theorem ComesTo.step {cs : List Char} {ls : List Lexeme} {l : Lexeme}
    (h : ComesTo (p.after (c :: cs.take (piece p c cs).more)) (cs.drop (piece p c cs).more) ls l) :
    ComesTo p (c :: cs) (((piece p c cs).token.map fun token =>
      Lexeme.mk token ⟨p, p.after (c :: cs.take (piece p c cs).more)⟩
        (String.ofList (c :: cs.take (piece p c cs).more))).toList ++ ls) l := by
  obtain ⟨before, c', rest, es, hdrop, hcut, htoken, hl⟩ := h
  have hlt : (piece p c cs).more < cs.length := by
    by_contra hge
    rw [List.drop_eq_nil_of_le (by omega)] at hdrop
    simp at hdrop
  have hcs : cs.take (piece p c cs).more ++ (before ++ c' :: rest) = cs := by
    rw [← hdrop, List.take_append_drop]
  refine ⟨c :: cs.take (piece p c cs).more ++ before, c', rest, (piece p c cs).errors ++ es,
    ?_, ?_, ?_, ?_⟩
  · rw [List.cons_append, List.cons_append, List.append_assoc, hcs]
  · refine .step (piece p c cs) ?_ ?_ hcut
    · rw [hcs]
    · rw [List.length_take]
      omega
  · rw [Position.after_append]
    exact htoken
  · rw [List.append_assoc, Position.after_append, Position.after_append]
    exact hl

/-- The lexer comes to each lexeme. -/
theorem comesTo_of_lexemes {p : Position} {cs : List Char} {l : Lexeme} {ms : List Lexeme}
    (ls : List Lexeme) (h : (scan p cs).lexemes = ls ++ l :: ms) : ComesTo p cs ls l := by
  fun_induction scan p cs generalizing ls with
  | case1 p => simp at h
  | case2 p c cs head taken stop rest ih =>
    cases htoken : head.token with
    | none =>
      simp only [htoken] at h
      have hlater := (ih ls h).step
      rwa [htoken] at hlater
    | some token =>
      simp only [htoken] at h
      cases ls with
      | nil =>
        obtain ⟨rfl, -⟩ := List.cons.inj h
        exact ⟨[], c, cs, [], rfl, .done p _, htoken, rfl⟩
      | cons first ls =>
        obtain ⟨rfl, hls⟩ := List.cons.inj h
        have hlater := (ih ls hls).step
        rwa [htoken] at hlater

/-! ### Names and numbers -/

/-- A piece with the token starts with a letter or a digit and stays within a word. It ends before
the first character that does not go on with it. -/
def EndsBefore (goesOn : Char → Bool) (token : Token) : Prop :=
  ∀ p c cs, (piece p c cs).token = some token → c.isAlphanum = true ∧
    (∀ d ∈ c :: cs.take (piece p c cs).more, continuesWord d = true) ∧
      ∀ d ∈ (cs.drop (piece p c cs).more).head?, goesOn d = false

/-- The characters start with a letter or a digit and are read as the token when what follows does
not go on with it. -/
def ReadsUpTo (goesOn : Char → Bool) (token : Token) (word : List Char) : Prop :=
  ∃ c tail, word = c :: tail ∧ c.isAlphanum = true ∧
    ∀ p rest, (∀ d ∈ rest.head?, goesOn d = false) →
      piece p c (tail ++ rest) = { more := tail.length, token := some token }

/-- Operators are neither names nor numbers. -/
theorem operatorPiece_token {token : Token} {cs : List Char}
    (h : (operatorPiece p c cs).token = some token) :
    (∀ text, token ≠ .name text) ∧ ∀ value, token ≠ .integer value := by
  have htwo : ∀ d token, operator2? c d = some token →
      (∀ text, token ≠ .name text) ∧ ∀ value, token ≠ .integer value := by
    intro d token hd
    unfold operator2? at hd
    split at hd <;> cases hd <;> exact ⟨nofun, nofun⟩
  have hone : (∀ text, operator1 c ≠ .name text) ∧ ∀ value, operator1 c ≠ .integer value := by
    unfold operator1
    split <;> exact ⟨nofun, nofun⟩
  unfold operatorPiece at h
  split at h
  · next two hfound =>
    cases h
    obtain ⟨d, -, hd⟩ := Option.bind_eq_some_iff.mp hfound
    exact htwo d _ hd
  · split at h
    · cases h
      exact ⟨nofun, nofun⟩
    · cases h
      exact hone

theorem stringPiece_token {token : Token} {inside : Position} {format : Bool} {lead : Nat}
    {cs : List Char} (h : (stringPiece p inside format lead cs).token = some token) :
    ∃ value multiline, token = .string value format multiline := by
  unfold stringPiece at h
  split at h <;> cases h <;> exact ⟨_, _, rfl⟩

/-- Names and integers are read from words and numbers only. -/
theorem piece_of_token {token : Token} {cs : List Char} (h : (piece p c cs).token = some token)
    (htoken : (∃ text, token = .name text) ∨ ∃ value, token = .integer value) :
    c.isDigit = true ∧ piece p c cs = numberPiece p c cs ∨
      startsWord c = true ∧ piece p c cs =
        { more := (cs.takeWhile continuesWord).length
          token := some (Token.ofWord (String.ofList (c :: cs.takeWhile continuesWord))) } := by
  have hstring : ∀ inside format lead cs,
      (stringPiece p inside format lead cs).token ≠ some token := by
    intro inside format lead cs heq
    obtain ⟨value, multiline, rfl⟩ := stringPiece_token heq
    simp at htoken
  -- Strings, operators and whatever else starts with another character are ruled out one after the
  -- other.
  unfold piece at h ⊢
  split at h
  · cases h
    simp at htoken
  next hline =>
  split at h
  · cases h
  next hblank =>
  split at h
  · cases h
  next hcomment =>
  split at h
  · exact absurd h (hstring _ _ _ _)
  next hquote =>
  split at h
  · exact absurd h (hstring _ _ _ _)
  next hformat =>
  rw [if_neg hline, if_neg hblank, if_neg hcomment, if_neg hquote, if_neg hformat]
  split at h
  · next hdigit => exact .inl ⟨hdigit, if_pos hdigit⟩
  next hdigit =>
  split at h
  · next hword => exact .inr ⟨hword, by rw [if_neg hdigit, if_pos hword]⟩
  · obtain ⟨hname, hinteger⟩ := operatorPiece_token h
    rcases htoken with ⟨text, rfl⟩ | ⟨value, rfl⟩
    · exact absurd rfl (hname text)
    · exact absurd rfl (hinteger value)

theorem le_of_integer? {radix value : Nat} {digits : List Char}
    (h : integer? radix digits = some value) : value ≤ maxInteger := by
  obtain ⟨_, -, h⟩ := Option.bind_eq_some_iff.mp h
  obtain ⟨found, -, h⟩ := Option.bind_eq_some_iff.mp h
  obtain ⟨_, hguard, heq⟩ := Option.bind_eq_some_iff.mp h
  cases heq
  by_contra hgt
  rw [show (guard (value ≤ maxInteger) : Option Unit) = none from if_neg hgt] at hguard
  cases hguard

/-- Only a number is read as an integer, and the integer is not too large. -/
theorem piece_of_integer {value : Nat} {cs : List Char}
    (h : (piece p c cs).token = some (.integer value)) :
    c.isDigit = true ∧ piece p c cs = numberPiece p c cs ∧ value < 2 ^ 63 := by
  rcases piece_of_token h (.inr ⟨value, rfl⟩) with ⟨hdigit, hpiece⟩ | ⟨-, hpiece⟩
  · refine ⟨hdigit, hpiece, ?_⟩
    rw [hpiece, numberPiece] at h
    dsimp only at h
    split at h
    · next found hfound =>
      cases h
      exact Nat.lt_succ_of_le (le_of_integer? hfound)
    · cases h
      decide
  · rw [hpiece] at h
    have hof : Token.ofWord (String.ofList (c :: cs.takeWhile continuesWord)) = .integer value :=
      Option.some.inj h
    unfold Token.ofWord at hof
    split at hof <;> cases hof

/-- Only a word is read as a name. -/
theorem piece_of_name {text : String} {cs : List Char}
    (h : (piece p c cs).token = some (.name text)) :
    startsWord c = true ∧ text = String.ofList (c :: cs.takeWhile continuesWord) ∧
      (piece p c cs).more = (cs.takeWhile continuesWord).length := by
  have hnumber : ∀ cs, (numberPiece p c cs).token ≠ some (.name text) := by
    intro cs
    unfold numberPiece
    dsimp only
    split <;> nofun
  rcases piece_of_token h (.inl ⟨text, rfl⟩) with ⟨-, hpiece⟩ | ⟨hword, hpiece⟩
  · rw [hpiece] at h
    exact absurd h (hnumber cs)
  · refine ⟨hword, ?_, by rw [hpiece]⟩
    rw [hpiece] at h
    have hof : Token.ofWord (String.ofList (c :: cs.takeWhile continuesWord)) = .name text :=
      Option.some.inj h
    unfold Token.ofWord at hof
    split at hof
    -- All cases before the last one are the words of the language.
    case h_15 => exact (Token.name.inj hof).symm
    all_goals cases hof

/-- The integers of a text are not too large. -/
theorem lt_of_mem_lexemes {cs : List Char} {l : Lexeme} (hl : l ∈ (scan p cs).lexemes) {value : Nat}
    (htoken : l.token = .integer value) : value < 2 ^ 63 := by
  obtain ⟨ls, ms, hlexemes⟩ := List.append_of_mem hl
  obtain ⟨before, c, rest, es, -, -, hpiece, -⟩ := comesTo_of_lexemes ls hlexemes
  rw [htoken] at hpiece
  exact (piece_of_integer hpiece).2.2

theorem endsBefore_integer (value : Nat) : EndsBefore Char.isAlphanum (.integer value) := by
  intro p c cs h
  obtain ⟨hdigit, hpiece, -⟩ := piece_of_integer h
  have halnum : c.isAlphanum = true := by rw [Char.isAlphanum, hdigit, Bool.or_true]
  have hle : (numberPiece p c cs).more ≤ cs.length := by
    unfold numberPiece
    dsimp only
    split <;> simp only [List.length_take, List.length_cons] <;> omega
  have hmore : (numberPiece p c
      (cs.take (numberPiece p c cs).more ++ cs.drop (numberPiece p c cs).more)).more =
        (cs.take (numberPiece p c cs).more).length := by
    rw [List.take_append_drop, List.length_take, Nat.min_eq_left hle]
  obtain ⟨hchars, hstops, -⟩ := numberPiece_local halnum hmore
  rw [hpiece]
  exact ⟨halnum, fun d hd => continuesWord_of_isAlphanum (hchars d hd), hstops⟩

theorem endsBefore_name {text : String} (htext : ∀ d ∈ text.toList.head?, d.isAlphanum = true) :
    EndsBefore continuesWord (.name text) := by
  intro p c cs h
  obtain ⟨hword, hname, hmore⟩ := piece_of_name h
  refine ⟨htext c (by rw [hname, String.toList_ofList]; rfl), ?_, ?_⟩
  · have htake : cs.take (cs.takeWhile continuesWord).length = cs.takeWhile continuesWord :=
      (List.prefix_iff_eq_take.mp (List.takeWhile_prefix _)).symm
    rw [hmore, htake]
    exact List.forall_mem_cons.mpr ⟨continuesWord_of_startsWord hword,
      fun d hd => List.all_eq_true.mp List.all_takeWhile d hd⟩
  · have hdrop : cs.drop (cs.takeWhile continuesWord).length = cs.dropWhile continuesWord := by
      have hsplit := @List.drop_left _ (cs.takeWhile continuesWord) (cs.dropWhile continuesWord)
      rwa [List.takeWhile_append_dropWhile] at hsplit
    intro d hd
    rw [hmore, hdrop] at hd
    have hnot := List.head?_dropWhile_not continuesWord cs
    rw [Option.mem_def.mp hd] at hnot
    simpa using hnot

/-- A number in a base is read up to the next character that is no letter or digit. -/
theorem readsUpTo_integer (base : CodeAction.Base) {value : Nat} (hvalue : value < 2 ^ 63) :
    ReadsUpTo Char.isAlphanum (.integer value) (base.write value).toList := by
  obtain ⟨c, tail, hword, hreads⟩ := readsAs_integer base hvalue
  have hdigit : c.isDigit = true := (piece_of_integer (congrArg Piece.token (hreads {} []))).1
  have halnum : c.isAlphanum = true := by rw [Char.isAlphanum, hdigit, Bool.or_true]
  have hnumber : ∀ p cs, piece p c cs = numberPiece p c cs := by
    intro p cs
    have hformat : c = 'f' → cs.head? ≠ some '\'' := by
      rintro rfl
      cases hdigit
    rw [piece_of_continuesWord (continuesWord_of_isAlphanum halnum) hformat, if_pos hdigit]
  refine ⟨c, tail, hword, halnum, fun p rest hrest => ?_⟩
  have hblank := hreads p []
  rw [hnumber] at hblank ⊢
  rw [(numberPiece_local halnum (congrArg Piece.more hblank)).2.2 rest hrest, hblank]

/-- A name is read up to the next character that does not go on with it. The name `f` would be taken
for a mark before a quote. -/
theorem readsUpTo_name {text : String} (hword : Token.isWord text.toList = true)
    (hname : text ∉ Token.reserved) (htext : ∀ d ∈ text.toList.head?, d.isAlphanum = true)
    (hmark : text ≠ "f") : ReadsUpTo continuesWord (.name text) text.toList := by
  cases hchars : text.toList with
  | nil =>
    rw [hchars] at hword
    cases hword
  | cons c tail =>
    rw [hchars] at htext
    rw [hchars, Token.isWord, Bool.and_eq_true, List.all_eq_true] at hword
    have hc : startsWord c = true := hword.1
    have htail : ∀ d ∈ tail, continuesWord d = true := hword.2
    refine ⟨c, tail, rfl, htext c rfl, fun p rest hrest => ?_⟩
    -- A letter follows the `f`, and so no quote.
    have hformat : c = 'f' → (tail ++ rest).head? ≠ some '\'' := by
      rintro rfl
      cases tail with
      | nil => exact absurd (String.toList_injective hchars) hmark
      | cons d tail =>
        intro hd
        have hd' := htail d List.mem_cons_self
        rw [Option.some.inj hd] at hd'
        exact absurd hd' (by decide)
    rw [piece_of_continuesWord (continuesWord_of_startsWord hc) hformat,
      isDigit_eq_false_of_startsWord hc, if_neg Bool.false_ne_true, if_pos hc,
      takeWhile_append_stop htail hrest, ← hchars, String.ofList_toList,
      ofWord_of_not_mem_reserved hname]

/-- A name or a number is written anew: the tokens before and after it stay as they are, and there
are no more errors than before. -/
theorem scan_respell {goesOn : Char → Bool} {cs word : List Char} {ls ms : List Lexeme} {l : Lexeme}
    {token : Token} (hlexemes : (scan p cs).lexemes = ls ++ l :: ms)
    (hends : EndsBefore goesOn l.token) (hreads : ReadsUpTo goesOn token word) :
    ∃ before old after, cs = before ++ (old ++ after) ∧
      l.span = ⟨p.after before, p.after (before ++ old)⟩ ∧
      old ≠ [] ∧ (∀ d ∈ old, continuesWord d = true) ∧
      (scan p (before ++ (word ++ after))).lexemes.map Lexeme.token =
        ls.map Lexeme.token ++ token :: ms.map Lexeme.token ∧
      (scan p (before ++ (word ++ after))).errors.length ≤ (scan p cs).errors.length := by
  obtain ⟨before, c, rest, es, rfl, hcut, htoken, hl⟩ := comesTo_of_lexemes ls hlexemes
  obtain ⟨hc, hchars, hstops⟩ := hends _ _ _ htoken
  obtain ⟨c', tail, rfl, hc', hpiece⟩ := hreads
  generalize hold : rest.take (piece (p.after before) c rest).more = old at hl hchars
  generalize hafter : rest.drop (piece (p.after before) c rest).more = after at hstops
  have hrest : rest = old ++ after := by rw [← hold, ← hafter, List.take_append_drop]
  have hscan := hcut.scan_eq
  -- In the new text the lexer comes to the same place, and reads the word there.
  have hstart : StartsAlike (c :: rest) (c' :: (tail ++ after)) := .inr ⟨⟨c, rfl, hc⟩, c', rfl, hc'⟩
  have hscan' := (hcut.swap hstart).scan_eq
  rw [scan, htoken, hold, hafter] at hscan
  rw [scan, hpiece _ _ hstops, List.take_left, List.drop_left] at hscan'
  have hms : ms = (scan ((p.after before).after (c :: old)) after).lexemes := by
    rw [hscan] at hlexemes
    exact (List.cons.inj (List.append_cancel_left hlexemes)).2.symm
  obtain ⟨htokens, herrors⟩ := scan_shift ((p.after before).after (c :: old))
    ((p.after before).after (c' :: tail)) after
  refine ⟨before, c :: old, after, ?_, ?_, List.cons_ne_nil _ _, hchars, ?_, ?_⟩
  · rw [hrest, List.cons_append]
  · rw [hl]
  · rw [List.cons_append, hscan', hms, List.map_append, List.map_cons, htokens]
  · rw [List.cons_append, hscan', hscan]
    simp only [List.length_append, herrors, List.length_nil]
    omega

end Lexer

end MesonLens
