import UnusedImports.Text.Utf8

/-!
Reading UTF-8 undoes writing it, and reads nothing else: bytes are read as a text exactly when
they are the bytes of that text. Bytes are compared as numbers, so that every form of a character
comes down to the digits of its code point in base 64.
-/
namespace UnusedImports.Text

theorem toList_loop (bytes : ByteArray) (i : Nat) (before : List UInt8) :
    ByteArray.toList.loop bytes i before = before.reverse ++ bytes.data.toList.drop i := by
  fun_induction ByteArray.toList.loop bytes i before with
  | case1 i before hlt ih =>
    have hlength : i < bytes.data.toList.length := by simpa using hlt
    have hget : bytes.get! i = bytes.data.toList.get ⟨i, hlength⟩ := getElem!_pos bytes.data i hlt
    rw [ih, List.drop_eq_getElem_cons hlength, List.reverse_cons, List.append_assoc,
      List.singleton_append, hget]
    rfl
  | case2 i before hge =>
    have hlength : bytes.data.toList.length ≤ i := by simpa using Nat.le_of_not_lt hge
    rw [List.drop_eq_nil_of_le hlength, List.append_nil]

/-- The bytes of a text are those of its characters, one after the other. -/
theorem encode_ofList (text : List Char) :
    encode (String.ofList text) = text.flatMap String.utf8EncodeChar := by
  rw [encode, String.toUTF8_eq_toByteArray, String.toByteArray_ofList, ByteArray.toList,
    toList_loop]
  simp [List.utf8Encode]

section Bytes

variable {a b c d : UInt8}

theorem isContinuation_iff : isContinuation b = true ↔ 0x80 ≤ b.toNat ∧ b.toNat ≤ 0xbf := by
  simp [isContinuation, UInt8.le_iff_toNat_le]

theorem isSecondOfThree_iff :
    isSecondOfThree a b = true ↔ 0x80 ≤ b.toNat ∧ b.toNat ≤ 0xbf ∧
      (a.toNat = 0xe0 → 0xa0 ≤ b.toNat) ∧ (a.toNat = 0xed → b.toNat ≤ 0x9f) := by
  unfold isSecondOfThree isContinuation
  simp only [← UInt8.toNat_inj, UInt8.le_iff_toNat_le]
  simp
  grind

theorem isSecondOfFour_iff :
    isSecondOfFour a b = true ↔ 0x80 ≤ b.toNat ∧ b.toNat ≤ 0xbf ∧
      (a.toNat = 0xf0 → 0x90 ≤ b.toNat) ∧ (a.toNat = 0xf4 → b.toNat ≤ 0x8f) := by
  unfold isSecondOfFour isContinuation
  simp only [← UInt8.toNat_inj, UInt8.le_iff_toNat_le]
  simp
  grind

theorem val_ofNat {code : Nat} (h : code.isValidChar) : (Char.ofNat code).val.toNat = code := by
  rw [Char.ofNat, dif_pos h]
  rfl

/-- A byte is the last eight bits of any number that spells it. -/
theorem ofNat_eq {code : Nat} (a : UInt8) (h : code = a.toNat) : UInt8.ofNat code = a := by
  rw [h, UInt8.ofNat_toNat]

theorem utf8EncodeChar_one (ha : a.toNat < 0x80) :
    String.utf8EncodeChar (Char.ofNat a.toNat) = [a] := by
  rw [String.utf8EncodeChar, val_ofNat (.inl (by omega))]
  rw [if_pos (by omega), UInt8.ofNat_toNat]

theorem utf8EncodeChar_two (ha : 0xc2 ≤ a.toNat ∧ a.toNat ≤ 0xdf)
    (hb : 0x80 ≤ b.toNat ∧ b.toNat ≤ 0xbf) :
    String.utf8EncodeChar (Char.ofNat (a.toNat % 32 * 64 + payload b)) = [a, b] := by
  unfold payload
  rw [String.utf8EncodeChar, val_ofNat (.inl (by omega))]
  rw [if_neg (by omega), if_pos (by omega), ofNat_eq a (by omega), ofNat_eq b (by omega)]

theorem utf8EncodeChar_three (ha : 0xe0 ≤ a.toNat ∧ a.toNat ≤ 0xef)
    (hb : isSecondOfThree a b = true) (hc : 0x80 ≤ c.toNat ∧ c.toNat ≤ 0xbf) :
    String.utf8EncodeChar (Char.ofNat (a.toNat % 16 * 4096 + payload b * 64 + payload c)) =
      [a, b, c] := by
  obtain ⟨hb, hb', hshort, hsurrogate⟩ := isSecondOfThree_iff.mp hb
  have hvalid : (a.toNat % 16 * 4096 + b.toNat % 64 * 64 + c.toNat % 64).isValidChar := by
    unfold Nat.isValidChar
    omega
  unfold payload
  rw [String.utf8EncodeChar, val_ofNat hvalid]
  rw [if_neg (by omega), if_neg (by omega), if_pos (by omega), ofNat_eq a (by omega),
    ofNat_eq b (by omega), ofNat_eq c (by omega)]

theorem utf8EncodeChar_four (ha : 0xf0 ≤ a.toNat ∧ a.toNat ≤ 0xf4)
    (hb : isSecondOfFour a b = true) (hc : 0x80 ≤ c.toNat ∧ c.toNat ≤ 0xbf)
    (hd : 0x80 ≤ d.toNat ∧ d.toNat ≤ 0xbf) :
    String.utf8EncodeChar (Char.ofNat
      (a.toNat % 8 * 262144 + payload b * 4096 + payload c * 64 + payload d)) = [a, b, c, d] := by
  obtain ⟨hb, hb', hshort, hlast⟩ := isSecondOfFour_iff.mp hb
  have hvalid : (a.toNat % 8 * 262144 + b.toNat % 64 * 4096 + c.toNat % 64 * 64 +
      d.toNat % 64).isValidChar := by
    unfold Nat.isValidChar
    omega
  unfold payload
  rw [String.utf8EncodeChar, val_ofNat hvalid]
  rw [if_neg (by omega), if_neg (by omega), if_neg (by omega), ofNat_eq a (by omega),
    ofNat_eq b (by omega), ofNat_eq c (by omega), ofNat_eq d (by omega)]

end Bytes

/-- A character that is read before others was written before them. -/
theorem eq_flatMap_of_map {result : Except Utf8Fault (List Char)} {c : Char}
    {bytes rest : List UInt8} {text : List Char} (hc : String.utf8EncodeChar c ++ rest = bytes)
    (hrest : ∀ later, result = .ok later → rest = later.flatMap String.utf8EncodeChar)
    (h : result.map (c :: ·) = .ok text) : bytes = text.flatMap String.utf8EncodeChar := by
  cases result with
  | error fault => simp [Except.map] at h
  | ok later =>
    obtain rfl := Except.ok.inj h
    rw [List.flatMap_cons, ← hrest later rfl, hc]

/-- What is read was written so. -/
theorem eq_flatMap_of_decodeFrom {index : Nat} {bytes : List UInt8} {text : List Char}
    (h : decodeFrom index bytes = .ok text) : bytes = text.flatMap String.utf8EncodeChar := by
  fun_induction decodeFrom index bytes generalizing text with
  | case1 => simp_all
  | case2 index a rest ha ih =>
    have hone := utf8EncodeChar_one (a := a) (by simpa [UInt8.lt_iff_toNat_lt] using ha)
    exact eq_flatMap_of_map (by rw [hone]; rfl) (fun later => ih) h
  | case4 index a _ ha b rest hb ih =>
    have htwo := utf8EncodeChar_two (a := a) (by simpa [UInt8.le_iff_toNat_le] using ha)
      (isContinuation_iff.mp hb)
    exact eq_flatMap_of_map (by rw [htwo]; rfl) (fun later => ih) h
  | case8 index a _ _ ha b hb c rest hc ih =>
    have hthree := utf8EncodeChar_three (a := a) (by simpa [UInt8.le_iff_toNat_le] using ha) hb
      (isContinuation_iff.mp hc)
    exact eq_flatMap_of_map (by rw [hthree]; rfl) (fun later => ih) h
  | case14 index a _ _ _ ha b hb c hc d rest hd ih =>
    have hfour := utf8EncodeChar_four (a := a) (by simpa [UInt8.le_iff_toNat_le] using ha) hb
      (isContinuation_iff.mp hc) (isContinuation_iff.mp hd)
    exact eq_flatMap_of_map (by rw [hfour]; rfl) (fun later => ih) h
  | _ => exact absurd h (by simp)

section Reading

variable {a b c d : UInt8} (index : Nat) (rest : List UInt8)

theorem decodeFrom_one (ha : a.toNat < 0x80) :
    decodeFrom index (a :: rest) =
      (decodeFrom (index + 1) rest).map (Char.ofNat a.toNat :: ·) := by
  have hone : a < 0x80 := by simpa [UInt8.lt_iff_toNat_lt] using ha
  rw [decodeFrom.eq_def]
  simp only [hone, if_true]

theorem decodeFrom_two (ha : 0xc2 ≤ a.toNat ∧ a.toNat ≤ 0xdf) (hb : isContinuation b = true) :
    decodeFrom index (a :: b :: rest) =
      (decodeFrom (index + 2) rest).map (Char.ofNat (a.toNat % 32 * 64 + payload b) :: ·) := by
  have hone : ¬ a < 0x80 := by simp [UInt8.lt_iff_toNat_lt]; omega
  have htwo : (0xc2 ≤ a && a ≤ 0xdf) = true := by simpa [UInt8.le_iff_toNat_le] using ha
  rw [decodeFrom.eq_def]
  simp only [hone, htwo, hb, if_true, if_false]

theorem decodeFrom_three (ha : 0xe0 ≤ a.toNat ∧ a.toNat ≤ 0xef)
    (hb : isSecondOfThree a b = true) (hc : isContinuation c = true) :
    decodeFrom index (a :: b :: c :: rest) =
      (decodeFrom (index + 3) rest).map
        (Char.ofNat (a.toNat % 16 * 4096 + payload b * 64 + payload c) :: ·) := by
  have hone : ¬ a < 0x80 := by simp [UInt8.lt_iff_toNat_lt]; omega
  have htwo : ¬ (0xc2 ≤ a && a ≤ 0xdf) = true := by simp [UInt8.le_iff_toNat_le]; omega
  have hthree : (0xe0 ≤ a && a ≤ 0xef) = true := by simpa [UInt8.le_iff_toNat_le] using ha
  rw [decodeFrom.eq_def]
  simp only [hone, htwo, hthree, hb, hc, Bool.false_eq_true, if_true, if_false]

theorem decodeFrom_four (ha : 0xf0 ≤ a.toNat ∧ a.toNat ≤ 0xf4)
    (hb : isSecondOfFour a b = true) (hc : isContinuation c = true)
    (hd : isContinuation d = true) :
    decodeFrom index (a :: b :: c :: d :: rest) =
      (decodeFrom (index + 4) rest).map (Char.ofNat
        (a.toNat % 8 * 262144 + payload b * 4096 + payload c * 64 + payload d) :: ·) := by
  have hone : ¬ a < 0x80 := by simp [UInt8.lt_iff_toNat_lt]; omega
  have htwo : ¬ (0xc2 ≤ a && a ≤ 0xdf) = true := by simp [UInt8.le_iff_toNat_le]; omega
  have hthree : ¬ (0xe0 ≤ a && a ≤ 0xef) = true := by simp [UInt8.le_iff_toNat_le]; omega
  have hfour : (0xf0 ≤ a && a ≤ 0xf4) = true := by simpa [UInt8.le_iff_toNat_le] using ha
  rw [decodeFrom.eq_def]
  simp only [hone, htwo, hthree, hfour, hb, hc, hd, Bool.false_eq_true, if_true, if_false]

end Reading

theorem ofNat_val {code : Nat} (c : Char) (h : code = c.val.toNat) : Char.ofNat code = c := by
  rw [h]
  exact c.ofNat_toNat

theorem exists_byte (code : Nat) (h : code < 256) :
    ∃ a : UInt8, UInt8.ofNat code = a ∧ a.toNat = code :=
  ⟨_, rfl, by rw [UInt8.toNat_ofNat', Nat.mod_eq_of_lt h]⟩

/-- A character that was written is read, and then what follows it. -/
theorem decodeFrom_utf8EncodeChar (index : Nat) (c : Char) (rest : List UInt8) :
    ∃ next, decodeFrom index (String.utf8EncodeChar c ++ rest) =
      (decodeFrom next rest).map (c :: ·) := by
  have hvalid : c.val.toNat.isValidChar := c.valid
  unfold Nat.isValidChar at hvalid
  rw [String.utf8EncodeChar]
  -- The code point in base 64, by the number of its digits.
  by_cases hone : c.val.toNat ≤ 127
  · obtain ⟨x, hx, hxcode⟩ := exists_byte c.val.toNat (by omega)
    rw [if_pos hone, hx, List.singleton_append, decodeFrom_one index rest (by omega),
      ofNat_val c hxcode]
    exact ⟨_, rfl⟩
  rw [if_neg hone]
  by_cases htwo : c.val.toNat ≤ 2047
  · obtain ⟨x, hx, hxcode⟩ := exists_byte (c.val.toNat / 64 % 32 + 192) (by omega)
    obtain ⟨y, hy, hycode⟩ := exists_byte (c.val.toNat % 64 + 128) (by omega)
    have hread := decodeFrom_two index rest (a := x) (b := y) (by omega)
      (isContinuation_iff.mpr (by omega))
    rw [ofNat_val c (by unfold payload; omega)] at hread
    rw [if_pos htwo, hx, hy]
    exact ⟨_, hread⟩
  rw [if_neg htwo]
  by_cases hthree : c.val.toNat ≤ 65535
  · obtain ⟨x, hx, hxcode⟩ := exists_byte (c.val.toNat / 4096 % 16 + 224) (by omega)
    obtain ⟨y, hy, hycode⟩ := exists_byte (c.val.toNat / 64 % 64 + 128) (by omega)
    obtain ⟨z, hz, hzcode⟩ := exists_byte (c.val.toNat % 64 + 128) (by omega)
    have hread := decodeFrom_three index rest (a := x) (b := y) (c := z) (by omega)
      (isSecondOfThree_iff.mpr (by omega)) (isContinuation_iff.mpr (by omega))
    rw [ofNat_val c (by unfold payload; omega)] at hread
    rw [if_pos hthree, hx, hy, hz]
    exact ⟨_, hread⟩
  rw [if_neg hthree]
  obtain ⟨x, hx, hxcode⟩ := exists_byte (c.val.toNat / 262144 % 8 + 240) (by omega)
  obtain ⟨y, hy, hycode⟩ := exists_byte (c.val.toNat / 4096 % 64 + 128) (by omega)
  obtain ⟨z, hz, hzcode⟩ := exists_byte (c.val.toNat / 64 % 64 + 128) (by omega)
  obtain ⟨w, hw, hwcode⟩ := exists_byte (c.val.toNat % 64 + 128) (by omega)
  have hread := decodeFrom_four index rest (a := x) (b := y) (c := z) (d := w) (by omega)
    (isSecondOfFour_iff.mpr (by omega)) (isContinuation_iff.mpr (by omega))
    (isContinuation_iff.mpr (by omega))
  rw [ofNat_val c (by unfold payload; omega)] at hread
  rw [hx, hy, hz, hw]
  exact ⟨_, hread⟩

theorem decodeFrom_flatMap (index : Nat) (text : List Char) :
    decodeFrom index (text.flatMap String.utf8EncodeChar) = .ok text := by
  induction text generalizing index with
  | nil => simp [decodeFrom]
  | cons c text ih =>
    obtain ⟨next, hnext⟩ :=
      decodeFrom_utf8EncodeChar index c (text.flatMap String.utf8EncodeChar)
    rw [List.flatMap_cons, hnext, ih]
    rfl

/-- Bytes are read as a text exactly when they are the bytes of that text. -/
theorem decode_eq_ok_iff {bytes : List UInt8} {text : String} :
    decode bytes = .ok text ↔ bytes = encode text := by
  constructor
  · intro h
    rw [decode] at h
    cases hdecode : decodeFrom 0 bytes with
    | error fault => simp [hdecode, Except.map] at h
    | ok characters =>
      rw [hdecode] at h
      obtain rfl := Except.ok.inj h
      rw [encode_ofList]
      exact eq_flatMap_of_decodeFrom hdecode
  · rintro rfl
    have hencode := encode_ofList text.toList
    rw [String.ofList_toList] at hencode
    rw [decode, hencode, decodeFrom_flatMap]
    simp [Except.map]

theorem toOption_eq_some_iff {ε α : Type} {result : Except ε α} {a : α} :
    result.toOption = some a ↔ result = .ok a := by
  cases result <;> simp [Except.toOption]

end UnusedImports.Text
