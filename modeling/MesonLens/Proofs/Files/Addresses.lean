import MesonLens.Files.Url
import MesonLens.Proofs.Files.Places
import MesonLens.Proofs.Text.Utf8

/-!
# `MesonLens.Proofs.Files.Addresses`: an address leads back to its file

A document is known by its address and a file by its path, so what is kept of a document and what
is kept of its file can be compared only when each gives the other.

* `Percent.decode_encode`: a name that is written with percent signs is read back;
* `Url.toPath?_ofPath?`: the address of a resolved path names that path;
* `Path.Written`: the paths that a text can give, among them every path that an address names.
-/

set_option autoImplicit false

namespace MesonLens

/-! ### Bytes behind percent signs -/

namespace Percent

theorem hexValue?_hexDigit {n : Nat} (hn : n < 16) : hexValue? (hexDigit n) = some n := by
  revert n
  decide

theorem decodeBytes_encodeByte (b : UInt8) (cs : List Char) :
    decodeBytes (encodeByte b ++ cs) = b :: decodeBytes cs := by
  have hb : b.toNat < 256 := b.toNat_lt
  have hjoin : b.toNat / 16 * 16 + b.toNat % 16 = b.toNat := by omega
  show decodeBytes ('%' :: hexDigit (b.toNat / 16) :: hexDigit (b.toNat % 16) :: cs) = _
  rw [decodeBytes, hexValue?_hexDigit (by omega), hexValue?_hexDigit (by omega)]
  simp [hjoin]

theorem decodeBytes_encodeBytes (bytes : List UInt8) (cs : List Char) :
    decodeBytes (bytes.flatMap encodeByte ++ cs) = bytes ++ decodeBytes cs := by
  induction bytes with
  | nil => rfl
  | cons b bytes ih =>
    rw [List.flatMap_cons, List.append_assoc, decodeBytes_encodeByte, ih, List.cons_append]

/-- Where no percent sign stands by itself, the bytes of the characters are meant. -/
theorem decodeBytes_encode {stands : Char → Bool} (hstands : stands '%' = false)
    (cs : List Char) : decodeBytes (encode stands cs) = Utf8.encode cs := by
  induction cs with
  | nil => rfl
  | cons c cs ih =>
    have hencode : encode stands (c :: cs) =
        (if stands c then [c] else (String.singleton c).toUTF8.toList.flatMap encodeByte)
          ++ encode stands cs := List.flatMap_cons
    rw [hencode, Utf8.encode_cons]
    split
    · next hc =>
      have hpercent : c ≠ '%' := by
        rintro rfl
        rw [hstands] at hc
        cases hc
      rw [List.singleton_append, decodeBytes, ih, Utf8.toUTF8_singleton]
      exact fun _ _ _ heq => absurd heq hpercent
    · rw [Utf8.toUTF8_singleton, decodeBytes_encodeBytes, ih]

/-- A text that is written with percent signs is read back. -/
theorem decode_encode {stands : Char → Bool} (hstands : stands '%' = false) (cs : List Char) :
    decode (encode stands cs) = String.ofList cs := by
  rw [decode, decodeBytes_encode hstands, Utf8.decodeLossy, Utf8.replaceFaults_encode]

end Percent

/-! ### Paths as they are written -/

namespace Path

/-- No name of the path has a slash in it, as is so when the path is read from a text. -/
def Written (p : Path) : Prop := ∀ name ∈ p.parts, '/' ∉ name.toList

/-- What stands between separators has no separator in it. -/
theorem not_mem_of_mem_splitOnP {p : Char → Bool} {c : Char} (hc : p c = true)
    {cs piece : List Char} (h : piece ∈ cs.splitOnP p) : c ∉ piece := by
  induction cs generalizing piece with
  | nil =>
    rw [List.splitOnP_nil, List.mem_singleton] at h
    simp [h]
  | cons d cs ih =>
    rw [List.splitOnP_cons_eq_if_modifyHead] at h
    split at h
    · rcases List.mem_cons.mp h with rfl | h
      · exact List.not_mem_nil
      · exact ih h
    · next hd =>
      -- The new character is put in front of the first of the other pieces.
      cases hrest : cs.splitOnP p with
      | nil => simp [hrest] at h
      | cons first more =>
        rw [hrest, List.modifyHead_cons, List.mem_cons] at h
        rcases h with rfl | h
        · have hfirst : c ∉ first := ih (hrest ▸ List.mem_cons_self)
          have hne : c ≠ d := by
            rintro rfl
            exact hd hc
          simp [hne, hfirst]
        · exact ih (hrest ▸ List.mem_cons_of_mem _ h)

theorem written_ofString (text : String) : (ofString text).Written := by
  have hpieces : ∀ name ∈ pieces text, '/' ∉ name.toList := by
    intro name hname
    obtain ⟨piece, hpiece, rfl⟩ := List.mem_map.mp hname
    rw [String.toList_ofList]
    exact not_mem_of_mem_splitOnP (by rfl) hpiece
  intro name hname
  unfold ofString at hname
  split at hname
  · exact hpieces name (List.mem_of_mem_drop hname)
  · exact hpieces name hname

/-- Resolving a name brings in no name but `..`. -/
theorem mem_step {absolute : Bool} {resolved : List String} {name n : String}
    (h : n ∈ step absolute resolved name) : n ∈ resolved ∨ n = name ∨ n = ".." := by
  unfold step at h
  split at h
  · exact .inl h
  split at h
  · -- Going up takes a name away. Only where there is none to take, `..` may be put in its place.
    cases resolved with
    | nil =>
      rw [up] at h
      split at h
      · exact absurd h List.not_mem_nil
      · exact .inr (.inr (List.mem_singleton.mp h))
    | cons top below =>
      rw [up] at h
      split at h
      · rcases List.mem_cons.mp h with rfl | h
        · exact .inr (.inr rfl)
        · exact .inl h
      · exact .inl (List.mem_cons_of_mem _ h)
  · rcases List.mem_cons.mp h with rfl | h
    · exact .inr (.inl rfl)
    · exact .inl h

theorem mem_foldl_step {absolute : Bool} {names resolved : List String} {n : String}
    (h : n ∈ names.foldl (step absolute) resolved) : n ∈ resolved ∨ n ∈ names ∨ n = ".." := by
  induction names generalizing resolved with
  | nil => exact .inl h
  | cons name names ih =>
    rcases ih h with h | h | h
    · rcases mem_step h with h | rfl | h
      · exact .inl h
      · exact .inr (.inl List.mem_cons_self)
      · exact .inr (.inr h)
    · exact .inr (.inl (List.mem_cons_of_mem _ h))
    · exact .inr (.inr h)

theorem Written.normalize {p : Path} (h : p.Written) : p.normalize.Written := by
  intro name hname
  rcases mem_foldl_step (List.mem_reverse.mp hname) with hname | hname | rfl
  · exact absurd hname List.not_mem_nil
  · exact h name hname
  · decide

/-- The names of a path from the root are read back from their text. -/
theorem ofString_intercalate {names : List String} (hne : names ≠ [])
    (h : ∀ name ∈ names, '/' ∉ name.toList) :
    ofString ("/" ++ String.intercalate "/" names) = ⟨true, names⟩ := by
  have hlist : ("/" ++ String.intercalate "/" names).toList =
      '/' :: ['/'].intercalate (names.map String.toList) := by
    rw [String.toList_append, String.toList_intercalate]
    rfl
  have hpieces : pieces ("/" ++ String.intercalate "/" names) = "" :: names := by
    have hsplit : (['/'].intercalate (names.map String.toList)).splitOnP (· == '/') =
        names.map String.toList := by
      apply List.splitOn_intercalate
      · intro piece hpiece
        obtain ⟨name, hname, rfl⟩ := List.mem_map.mp hpiece
        exact h name hname
      · simpa using hne
    rw [pieces, hlist, List.splitOnP_cons_eq_if_modifyHead, if_pos (by rfl), hsplit]
    simp
  rw [ofString, if_pos (by rw [hlist]; rfl), hpieces]
  rfl

end Path

/-! ### Addresses of files -/

namespace Url

/-- Names that stand encoded in the address of a file are the names of its path. -/
theorem toPath?_steps {names : List String} (hne : names ≠ [])
    (h : ∀ name ∈ names, '/' ∉ name.toList) :
    toPath?
      { scheme := "file", authority := some {}
        route := .steps (names.map fun name =>
          String.ofList (Percent.encode Percent.inName name.toList)) } =
      some (Path.mk true names).normalize := by
  have hdecode : (names.map fun name =>
      String.ofList (Percent.encode Percent.inName name.toList)).map
        (fun name => Percent.decode name.toList) = names := by
    rw [List.map_map]
    refine (List.map_congr_left fun name _ => ?_).trans (List.map_id _)
    rw [Function.comp_apply, String.toList_ofList, Percent.decode_encode (by decide),
      String.ofList_toList, id]
  rw [← Path.ofString_intercalate hne h]
  cases names with
  | nil => exact absurd rfl hne
  | cons name names =>
    exact congrArg (fun decoded =>
      some (Path.ofString ("/" ++ String.intercalate "/" decoded)).normalize) hdecode

/-- The address of a resolved path names that path. -/
theorem toPath?_ofPath? {p : Path} (hwritten : p.Written) (hnormal : p.Normal) {url : Url}
    (h : ofPath? p = some url) : url.toPath? = some p := by
  obtain ⟨absolute, parts⟩ := p
  unfold ofPath? at h
  split at h
  · next habsolute =>
    obtain rfl : absolute = true := habsolute
    cases parts with
    | nil =>
      -- The root has one empty name in its address.
      obtain rfl := Option.some.inj h
      exact toPath?_steps (List.cons_ne_nil "" []) (by decide)
    | cons name names =>
      obtain rfl := Option.some.inj h
      exact (toPath?_steps (List.cons_ne_nil name names) hwritten).trans (congrArg some hnormal)
  · cases h

/-- The path that an address names is resolved, and a text can give it. -/
theorem normal_of_toPath? {url : Url} {p : Path} (h : url.toPath? = some p) :
    p.Written ∧ p.Normal ∧ p.absolute = true := by
  unfold toPath? at h
  split at h
  · cases h
  · cases h
  · split at h
    · obtain rfl := Option.some.inj h
      refine ⟨(Path.written_ofString _).normalize, Path.normal_normalize _, ?_⟩
      -- The text starts with a slash.
      show (Path.ofString _).absolute = true
      rw [Path.ofString, if_pos (by simp)]
    · cases h

end Url

end MesonLens
