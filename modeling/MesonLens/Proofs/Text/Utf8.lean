import MesonLens.Text.Position
import MesonLens.Text.Utf8

/-!
# `MesonLens.Proofs.Text.Utf8`: the bytes of characters

Characters of ASCII are single bytes, and all bytes of another character are larger ones. So a byte
of ASCII tells where a character stands (`Utf8.exists_chars_cons`), wherever it is found, and bytes
that spell characters of ASCII are those characters (`Utf8.exists_chars`).

* `Utf8.toList_toUTF8`: the bytes of a text are those of its characters;
* `Utf8.replaceFaults_encode`: characters are read back from their bytes.
-/

set_option autoImplicit false

namespace MesonLens

namespace Utf8

/-- The bytes of characters. -/
def encode (cs : List Char) : List UInt8 := cs.flatMap String.utf8EncodeChar

@[simp] theorem encode_nil : encode [] = [] := rfl

@[simp] theorem encode_cons (c : Char) (cs : List Char) :
    encode (c :: cs) = String.utf8EncodeChar c ++ encode cs := List.flatMap_cons

@[simp] theorem encode_append (cs ds : List Char) : encode (cs ++ ds) = encode cs ++ encode ds :=
  List.flatMap_append

theorem length_encode (cs : List Char) : (encode cs).length = byteLength cs := by
  induction cs with
  | nil => rfl
  | cons c cs ih =>
    rw [encode_cons, List.length_append, String.length_utf8EncodeChar, ih, byteLength]

theorem encode_eq_nil_iff {cs : List Char} : encode cs = [] ↔ cs = [] := by
  cases cs with
  | nil => simp
  | cons c cs =>
    have hpos := c.utf8Size_pos
    rw [← String.length_utf8EncodeChar] at hpos
    simp [List.ne_nil_of_length_pos hpos]

/-- From an index on, the bytes are taken one by one. -/
theorem toList_loop (bytes : ByteArray) (i : Nat) (found : List UInt8) :
    ByteArray.toList.loop bytes i found = found.reverse ++ bytes.data.toList.drop i := by
  fun_induction ByteArray.toList.loop bytes i found with
  | case1 i found h ih =>
    have hget : bytes.get! i = bytes.data.toList[i] := by
      simp [ByteArray.get!, getElem!_pos bytes.data i h]
    rw [ih, hget, List.drop_eq_getElem_cons (i := i), List.reverse_cons, List.append_assoc,
      List.singleton_append]
  | case2 i found h =>
    have hend : bytes.data.toList.length ≤ i := by simpa using h
    rw [List.drop_eq_nil_of_le hend, List.append_nil]

theorem toList_toUTF8 (text : String) : text.toUTF8.toList = encode text.toList := by
  rw [String.toUTF8, ← String.utf8Encode_toList, List.utf8Encode, ByteArray.toList, toList_loop]
  simp [encode]

theorem toUTF8_singleton (c : Char) :
    (String.singleton c).toUTF8.toList = String.utf8EncodeChar c := by
  rw [toList_toUTF8, String.toList_singleton, encode_cons, encode_nil, List.append_nil]

/-! ### Bytes of ASCII -/

/-- The character is its only byte. -/
def IsAscii (c : Char) : Prop := c.val.toNat < 128

instance (c : Char) : Decidable (IsAscii c) := inferInstanceAs (Decidable (c.val.toNat < 128))

/-- All bytes of a character that is not of ASCII are larger than those that are. -/
theorem le_of_mem_utf8EncodeChar {c : Char} (hc : ¬ IsAscii c) :
    ∀ b ∈ String.utf8EncodeChar c, 128 ≤ b.toNat := by
  have hnot : ¬ c.val.toNat < 128 := hc
  have hbyte : ∀ n, 128 ≤ n → n < 256 → 128 ≤ (UInt8.ofNat n).toNat := fun n hlow hhigh => by
    rwa [UInt8.toNat_ofNat', Nat.mod_eq_of_lt hhigh]
  unfold String.utf8EncodeChar
  dsimp only
  split
  · omega
  split
  · simp only [List.forall_mem_cons]
    exact ⟨hbyte _ (by omega) (by omega), hbyte _ (by omega) (by omega), nofun⟩
  split
  · simp only [List.forall_mem_cons]
    exact ⟨hbyte _ (by omega) (by omega), hbyte _ (by omega) (by omega),
      hbyte _ (by omega) (by omega), nofun⟩
  · simp only [List.forall_mem_cons]
    exact ⟨hbyte _ (by omega) (by omega), hbyte _ (by omega) (by omega),
      hbyte _ (by omega) (by omega), hbyte _ (by omega) (by omega), nofun⟩

theorem utf8EncodeChar_of_ascii {c : Char} (hc : IsAscii c) :
    String.utf8EncodeChar c = [c.val.toUInt8] :=
  String.utf8EncodeChar_eq_singleton (Char.utf8Size_eq_one_iff.mpr (Nat.le_of_lt_succ hc))

theorem toNat_toUInt8 {c : Char} (hc : IsAscii c) : c.val.toUInt8.toNat = c.val.toNat := by
  rw [UInt32.toNat_toUInt8]
  exact Nat.mod_eq_of_lt (Nat.lt_trans hc (by decide))

/-- The byte of a character of ASCII is in no other character. -/
theorem eq_of_mem_utf8EncodeChar {c d : Char} (hd : IsAscii d)
    (h : d.val.toUInt8 ∈ String.utf8EncodeChar c) : c = d := by
  by_cases hc : IsAscii c
  · rw [utf8EncodeChar_of_ascii hc, List.mem_singleton] at h
    have hnat := congrArg UInt8.toNat h
    rw [toNat_toUInt8 hd, toNat_toUInt8 hc] at hnat
    exact (Char.ext (UInt32.toNat_inj.mp hnat)).symm
  · have hle := le_of_mem_utf8EncodeChar hc _ h
    rw [toNat_toUInt8 hd] at hle
    exact absurd hd (Nat.not_lt.mpr hle)

theorem mem_of_mem_encode {cs : List Char} {d : Char} (hd : IsAscii d)
    (h : d.val.toUInt8 ∈ encode cs) : d ∈ cs := by
  obtain ⟨c, hc, hbyte⟩ := List.mem_flatMap.mp h
  rwa [← eq_of_mem_utf8EncodeChar hd hbyte]

theorem length_encode_of_ascii {cs : List Char} (h : ∀ c ∈ cs, IsAscii c) :
    (encode cs).length = cs.length := by
  induction cs with
  | nil => rfl
  | cons c cs ih =>
    obtain ⟨hc, hcs⟩ := List.forall_mem_cons.mp h
    rw [encode_cons, utf8EncodeChar_of_ascii hc, List.singleton_append, List.length_cons, ih hcs,
      List.length_cons]

/-- A byte of ASCII is a character, with whole characters before and behind it. -/
theorem exists_chars_cons {cs : List Char} {d : Char} {before after : List UInt8} (hd : IsAscii d)
    (h : encode cs = before ++ d.val.toUInt8 :: after) :
    ∃ left right, cs = left ++ d :: right ∧ encode left = before ∧ encode right = after := by
  induction cs generalizing before with
  | nil => simp at h
  | cons c cs ih =>
    rw [encode_cons] at h
    rcases List.append_eq_append_iff.mp h with ⟨more, rfl, hmore⟩ | ⟨more, hbefore, hmore⟩
    · -- The byte stands behind the first character.
      obtain ⟨left, right, rfl, rfl, hright⟩ := ih hmore
      exact ⟨c :: left, right, rfl, encode_cons c left, hright⟩
    cases more with
    | nil =>
      have hnext : encode cs = [] ++ d.val.toUInt8 :: after := hmore.symm
      obtain ⟨left, right, rfl, hleft, hright⟩ := ih hnext
      obtain rfl := encode_eq_nil_iff.mp hleft
      exact ⟨[c], right, rfl, by simpa using hbefore, hright⟩
    | cons b more =>
      -- The byte is one of the first character, and so all of it.
      obtain ⟨rfl, rfl⟩ := List.cons.inj hmore
      obtain rfl : c = d := eq_of_mem_utf8EncodeChar hd (by simp [hbefore])
      rw [utf8EncodeChar_of_ascii hd] at hbefore
      cases before with
      | nil =>
        obtain rfl : more = [] := by simpa using hbefore.symm
        exact ⟨[], cs, rfl, rfl, rfl⟩
      | cons b before => simp at hbefore

/-- Bytes that spell characters of ASCII are those characters. -/
theorem exists_chars {cs ds : List Char} {before after : List UInt8} (hne : ds ≠ [])
    (hds : ∀ d ∈ ds, IsAscii d) (h : encode cs = before ++ (encode ds ++ after)) :
    ∃ left right, cs = left ++ (ds ++ right) ∧ encode left = before ∧ encode right = after := by
  induction ds generalizing cs before with
  | nil => exact absurd rfl hne
  | cons d ds ih =>
    obtain ⟨hd, hds⟩ := List.forall_mem_cons.mp hds
    rw [encode_cons, utf8EncodeChar_of_ascii hd] at h
    obtain ⟨left, rest, rfl, hleft, hrest⟩ := exists_chars_cons hd h
    by_cases hlast : ds = []
    · subst hlast
      exact ⟨left, rest, rfl, hleft, hrest⟩
    · -- The others follow right behind.
      have hnext : encode rest = [] ++ (encode ds ++ after) := hrest
      obtain ⟨none, right, rfl, hnone, hright⟩ := ih hlast hds hnext
      obtain rfl := encode_eq_nil_iff.mp hnone
      exact ⟨left, right, rfl, hleft, hright⟩

/-! ### Reading bytes -/

/-- A byte that is within its bounds is taken up. -/
theorem follow_succ {more low high value size : Nat} {b : UInt8} {n : Nat} (bytes : List UInt8)
    (hb : b = UInt8.ofNat n) (hn : n < 256) (hbounds : low ≤ n ∧ n ≤ high) :
    follow (more + 1) low high value size (b :: bytes) =
      follow more 0x80 0xbf (value * 64 + n % 64) (size + 1) bytes := by
  have hnat : b.toNat = n := by
    rw [hb, UInt8.toNat_ofNat', Nat.mod_eq_of_lt hn]
  rw [follow, hnat, if_pos hbounds]

/-- The bytes of a character are read as that character, whatever comes after them. -/
theorem piece_utf8EncodeChar (c : Char) :
    ∃ first more, String.utf8EncodeChar c = first :: more ∧
      ∀ rest, piece first (more ++ rest) = .char c (more.length + 1) := by
  obtain ⟨v, hv⟩ : ∃ v, c.val.toNat = v := ⟨_, rfl⟩
  have hc : Char.ofNat v = c := hv ▸ Char.ofNat_toNat c
  -- The numbers from 0xd800 to 0xdfff are no characters.
  have hvalid : v < 0xd800 ∨ 0xdfff < v ∧ v < 0x110000 := hv ▸ c.valid
  have hnat : ∀ n, n < 256 → (UInt8.ofNat n).toNat = n := fun n hn => by
    rw [UInt8.toNat_ofNat', Nat.mod_eq_of_lt hn]
  unfold String.utf8EncodeChar
  simp only [hv]
  by_cases h1 : v ≤ 127
  · refine ⟨_, _, if_pos h1, fun rest => ?_⟩
    rw [piece, hnat _ (by omega), continuation?, if_pos (by omega)]
    simp [leadingBits, follow, hc]
  rw [if_neg h1]
  by_cases h2 : v ≤ 2047
  · refine ⟨_, _, if_pos h2, fun rest => ?_⟩
    rw [piece, hnat _ (by omega), continuation?, if_neg (by omega), if_neg (by omega),
      if_pos (by omega)]
    simp only [List.cons_append, List.nil_append]
    rw [follow_succ _ rfl (by omega) (by omega), follow, leadingBits]
    rw [show (v / 64 % 32 + 192) % 32 * 64 + (v % 64 + 128) % 64 = v by omega, hc]
    rfl
  rw [if_neg h2]
  by_cases h3 : v ≤ 65535
  · refine ⟨_, _, if_pos h3, fun rest => ?_⟩
    rw [piece, hnat _ (by omega), continuation?, if_neg (by omega), if_neg (by omega),
      if_neg (by omega), if_pos (by omega)]
    simp only [List.cons_append, List.nil_append]
    rw [follow_succ _ rfl (by omega) (by constructor <;> split <;> omega),
      follow_succ _ rfl (by omega) (by omega), follow, leadingBits]
    rw [show ((v / 4096 % 16 + 224) % 16 * 64 + (v / 64 % 64 + 128) % 64) * 64
      + (v % 64 + 128) % 64 = v by omega, hc]
    rfl
  · refine ⟨_, _, if_neg h3, fun rest => ?_⟩
    rw [piece, hnat _ (by omega), continuation?, if_neg (by omega), if_neg (by omega),
      if_neg (by omega), if_neg (by omega), if_pos (by omega)]
    simp only [List.cons_append, List.nil_append]
    rw [follow_succ _ rfl (by omega) (by constructor <;> split <;> omega),
      follow_succ _ rfl (by omega) (by omega), follow_succ _ rfl (by omega) (by omega), follow,
      leadingBits]
    · rw [show (((v / 262144 % 8 + 240) % 8 * 64 + (v / 4096 % 64 + 128) % 64) * 64
        + (v / 64 % 64 + 128) % 64) * 64 + (v % 64 + 128) % 64 = v by omega, hc]
      rfl
    all_goals omega

/-- Text that was made into bytes is read back, without a fault. -/
theorem replaceFaults_encode (cs : List Char) : replaceFaults (encode cs) = cs := by
  induction cs with
  | nil => rw [encode_nil, replaceFaults]
  | cons c cs ih =>
    obtain ⟨first, more, hbytes, hpiece⟩ := piece_utf8EncodeChar c
    rw [encode_cons, hbytes, List.cons_append, replaceFaults, hpiece]
    simp [ih]

theorem encode_inj {cs ds : List Char} : encode cs = encode ds ↔ cs = ds := by
  refine ⟨fun h => ?_, congrArg encode⟩
  rw [← replaceFaults_encode cs, h, replaceFaults_encode]

end Utf8

end MesonLens
