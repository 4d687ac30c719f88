/-!
Reading bytes as UTF-8. The bytes either spell a list of characters or hold a first fault:
its position is the length of the longest well-formed beginning, and its width is the
number of bytes that can be skipped as one broken sequence. A sequence that is right as far
as it goes but meets the end of the input has no width. Bytes that have to be shown in any case
are read with a replacement for each broken sequence.
-/
namespace UnusedImports.Text

structure Utf8Fault where
  /-- How many bytes before the fault are well formed. -/
  index : Nat
  /-- How many bytes form the broken sequence, unless the input ends inside it. -/
  width : Option Nat
deriving DecidableEq

def Utf8Fault.message (fault : Utf8Fault) : String :=
  match fault.width with
  | some width => s!"invalid utf-8 sequence of {width} bytes from index {fault.index}"
  | none => s!"incomplete utf-8 byte sequence from index {fault.index}"

def isContinuation (byte : UInt8) : Bool := 0x80 ≤ byte && byte ≤ 0xbf

/-- The bytes that may come second after a leading byte of a three byte sequence: no
sequence spells a code point that has a shorter one, nor a surrogate. -/
def isSecondOfThree (lead second : UInt8) : Bool :=
  if lead = 0xe0 then 0xa0 ≤ second && second ≤ 0xbf
  else if lead = 0xed then 0x80 ≤ second && second ≤ 0x9f
  else isContinuation second

/-- The bytes that may come second after a leading byte of a four byte sequence: no
sequence spells a code point that has a shorter one, nor one above the last. -/
def isSecondOfFour (lead second : UInt8) : Bool :=
  if lead = 0xf0 then 0x90 ≤ second && second ≤ 0xbf
  else if lead = 0xf4 then 0x80 ≤ second && second ≤ 0x8f
  else isContinuation second

def payload (byte : UInt8) : Nat := byte.toNat % 64

def decodeFrom (index : Nat) : List UInt8 → Except Utf8Fault (List Char)
  | [] => .ok []
  | a :: rest =>
    if a < 0x80 then
      (decodeFrom (index + 1) rest).map (Char.ofNat a.toNat :: ·)
    else if 0xc2 ≤ a && a ≤ 0xdf then
      match rest with
      | [] => .error ⟨index, none⟩
      | b :: rest =>
        if isContinuation b then
          (decodeFrom (index + 2) rest).map
            (Char.ofNat (a.toNat % 32 * 64 + payload b) :: ·)
        else .error ⟨index, some 1⟩
    else if 0xe0 ≤ a && a ≤ 0xef then
      match rest with
      | [] => .error ⟨index, none⟩
      | b :: rest =>
        if isSecondOfThree a b then
          match rest with
          | [] => .error ⟨index, none⟩
          | c :: rest =>
            if isContinuation c then
              (decodeFrom (index + 3) rest).map
                (Char.ofNat (a.toNat % 16 * 4096 + payload b * 64 + payload c) :: ·)
            else .error ⟨index, some 2⟩
        else .error ⟨index, some 1⟩
    else if 0xf0 ≤ a && a ≤ 0xf4 then
      match rest with
      | [] => .error ⟨index, none⟩
      | b :: rest =>
        if isSecondOfFour a b then
          match rest with
          | [] => .error ⟨index, none⟩
          | c :: rest =>
            if isContinuation c then
              match rest with
              | [] => .error ⟨index, none⟩
              | d :: rest =>
                if isContinuation d then
                  (decodeFrom (index + 4) rest).map
                    (Char.ofNat
                      (a.toNat % 8 * 262144 + payload b * 4096 + payload c * 64 + payload d) :: ·)
                else .error ⟨index, some 3⟩
            else .error ⟨index, some 2⟩
        else .error ⟨index, some 1⟩
    else .error ⟨index, some 1⟩

def decode (bytes : List UInt8) : Except Utf8Fault String :=
  (decodeFrom 0 bytes).map String.ofList

def encode (text : String) : List UInt8 := text.toUTF8.toList

theorem width_ne_zero {index : Nat} {bytes : List UInt8} {fault : Utf8Fault}
    (h : decodeFrom index bytes = .error fault) : fault.width ≠ some 0 := by
  have hmap : ∀ {c : Char} {result : Except Utf8Fault (List Char)},
      result.map (c :: ·) = .error fault → result = .error fault := by
    intro c result hresult
    cases result with
    | error other => simpa [Except.map] using hresult
    | ok text => simp [Except.map] at hresult
  fun_induction decodeFrom index bytes
  case case1 => simp at h
  case case2 ih => exact ih (hmap h)
  case case4 ih => exact ih (hmap h)
  case case8 ih => exact ih (hmap h)
  case case14 ih => exact ih (hmap h)
  all_goals
    obtain rfl := Except.error.inj h
    simp

/-- The characters of some bytes, with a replacement for each broken sequence and for a sequence
that meets the end of the input. -/
def lossyChars (bytes : List UInt8) : List Char :=
  match _ : decodeFrom 0 bytes with
  | .ok text => text
  | .error fault =>
    ((decodeFrom 0 (bytes.take fault.index)).toOption.getD []) ++ '\ufffd' ::
      match _ : fault.width with
      | none => []
      | some width => lossyChars (bytes.drop (fault.index + width))
termination_by bytes.length
decreasing_by
  rename_i hfault hwidth
  have hpositive : width ≠ 0 := fun heq => width_ne_zero hfault (heq ▸ hwidth)
  have hnonempty : bytes ≠ [] := by
    rintro rfl
    simp [decodeFrom] at hfault
  have hlength := List.length_pos_iff.mpr hnonempty
  rw [List.length_drop]
  omega

def lossy (bytes : List UInt8) : String := String.ofList (lossyChars bytes)

end UnusedImports.Text
