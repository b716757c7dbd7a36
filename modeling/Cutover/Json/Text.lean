import Cutover.Bytes

/-!
# Quoted text

A quoted text is a quote, raw bytes and escapes, and a quote. It is read in two stages: `Text.scan`
finds its pieces and its end and is all that is asked of a text that is thrown away; `Text.join`
puts the pieces together and refuses halves of surrogate pairs, and the result has to be UTF-8.
Main statement: a written text is read back, whatever follows it (`Text.read_write`).
-/

namespace Cutover.Json

/-- Why bytes are not the written form of the wanted value: the bytes break the grammar, or they
are the written form of something else. -/
inductive Problem where
  | malformed
  | mismatched
  deriving DecidableEq, Repr

@[match_pattern] abbrev quoteByte : UInt8 := 34
@[match_pattern] abbrev backslashByte : UInt8 := 92

/-- The bytes that may stand between two tokens. -/
def isBlank (b : UInt8) : Bool := b == 32 || b == 9 || b == 10 || b == 13

def skipBlank (bs : Bytes) : Bytes := bs.dropWhile isBlank

/-- The bytes after a literal word. -/
def word : Bytes → Bytes → Option Bytes
  | [], bs => some bs
  | c :: w, b :: bs => if b = c then word w bs else none
  | _ :: _, [] => none

namespace Text

/-- A piece of a quoted text: a byte that stands for itself, or the code unit of an escape. -/
inductive Piece where
  | raw (b : UInt8)
  | unit (n : Nat)
  deriving DecidableEq, Repr

/-! ## Reading -/

/-- The value of a hexadecimal digit, of either case. -/
def hexValue (b : UInt8) : Option Nat :=
  if 48 ≤ b ∧ b ≤ 57 then some (b.toNat - 48)
  else if 97 ≤ b ∧ b ≤ 102 then some (b.toNat - 87)
  else if 65 ≤ b ∧ b ≤ 70 then some (b.toNat - 55)
  else none

/-- The code unit that four hexadecimal digits name. -/
def hexUnit (a b c d : UInt8) : Option Nat := do
  let a ← hexValue a
  let b ← hexValue b
  let c ← hexValue c
  let d ← hexValue d
  pure (((a * 16 + b) * 16 + c) * 16 + d)

/-- The escapes of one letter, as pairs of the letter and what it stands for. -/
def shortEscapes : List (UInt8 × UInt8) :=
  [(34, 34), (92, 92), (47, 47), (98, 8), (102, 12), (110, 10), (114, 13), (116, 9)]

/-- What a one-letter escape stands for. -/
def shortEscape (e : UInt8) : Option Nat := (shortEscapes.lookup e).map UInt8.toNat

/-- The pieces of a text up to its closing quote, and the bytes after it. -/
def scan : Bytes → Option (List Piece × Bytes)
  | [] => none
  | b :: rest =>
    if b = quoteByte then some ([], rest)
    else if b = backslashByte then
      match rest with
      | [] => none
      | e :: rest =>
        if e = 117 then
          match rest with
          | h₁ :: h₂ :: h₃ :: h₄ :: rest => do
            let n ← hexUnit h₁ h₂ h₃ h₄
            let (ps, after) ← scan rest
            pure (.unit n :: ps, after)
          | _ => none
        else do
          let n ← shortEscape e
          let (ps, after) ← scan rest
          pure (.unit n :: ps, after)
    else if b < 32 then none
    else do
      let (ps, after) ← scan rest
      pure (.raw b :: ps, after)

/-- The first half of a surrogate pair. -/
def isLeading (n : Nat) : Bool := 0xD800 ≤ n && n ≤ 0xDBFF

/-- The second half of a surrogate pair. -/
def isTrailing (n : Nat) : Bool := 0xDC00 ≤ n && n ≤ 0xDFFF

/-- The code point that a surrogate pair stands for. -/
def pairValue (hi lo : Nat) : Nat := 0x10000 + (hi - 0xD800) * 0x400 + (lo - 0xDC00)

/-- The UTF-8 form of a code point. -/
def encodePoint (n : Nat) : Bytes := String.utf8EncodeChar (Char.ofNat n)

/-- The bytes that pieces stand for. Halves of surrogate pairs have to come in pairs. -/
def join : List Piece → Option Bytes
  | [] => some []
  | .raw b :: rest => (join rest).map (b :: ·)
  | .unit n :: rest =>
    if isTrailing n then none
    else if isLeading n then
      match rest with
      | .unit m :: rest =>
        if isTrailing m then (join rest).map (encodePoint (pairValue n m) ++ ·) else none
      | _ => none
    else (join rest).map (encodePoint n ++ ·)

/-- The text after an opening quote, and the bytes after its closing quote. -/
def read (bs : Bytes) : Option (String × Bytes) := do
  let (ps, after) ← scan bs
  let b ← join ps
  let s ← Bytes.toText? b
  pure (s, after)

/-! ## Writing -/

def hexDigit (n : Nat) : UInt8 := if n < 10 then UInt8.ofNat (48 + n) else UInt8.ofNat (87 + n)

/-- The written form of a byte inside quotes: quote, backslash and control bytes are escaped, with
one letter where there is one. -/
def escapeByte (b : UInt8) : Bytes :=
  if b = 34 then [92, 34]
  else if b = 92 then [92, 92]
  else if b = 8 then [92, 98]
  else if b = 9 then [92, 116]
  else if b = 10 then [92, 110]
  else if b = 12 then [92, 102]
  else if b = 13 then [92, 114]
  else if b < 32 then [92, 117, 48, 48, hexDigit (b.toNat / 16), hexDigit (b.toNat % 16)]
  else [b]

def write (s : String) : Bytes := quoteByte :: ((Bytes.ofText s).flatMap escapeByte ++ [quoteByte])

/-! ## A written text is read back -/

/-- The piece that a byte is read back as. -/
def pieceOf (b : UInt8) : Piece :=
  if b = 34 ∨ b = 92 ∨ b < 32 then .unit b.toNat else .raw b

theorem scan_quote (bs : Bytes) : scan (34 :: bs) = some ([], bs) := by
  rw [scan.eq_def]; rfl

theorem scan_short {e : UInt8} {n : Nat} (bs : Bytes) (he : e ≠ 117) (h : shortEscape e = some n) :
    scan (92 :: e :: bs) = (scan bs).map fun r => (.unit n :: r.1, r.2) := by
  rw [scan.eq_def]
  simp only [quoteByte, backslashByte, show ¬(92 : UInt8) = 34 by decide, he, h, if_false, if_true]
  cases scan bs <;> rfl

theorem scan_hex {a b c d : UInt8} {n : Nat} (bs : Bytes) (h : hexUnit a b c d = some n) :
    scan (92 :: 117 :: a :: b :: c :: d :: bs) =
      (scan bs).map fun r => (.unit n :: r.1, r.2) := by
  rw [scan]
  simp only [quoteByte, backslashByte, show ¬(92 : UInt8) = 34 by decide, h, if_false, if_true]
  cases scan bs <;> rfl

theorem scan_raw {b : UInt8} (bs : Bytes) (h34 : b ≠ 34) (h92 : b ≠ 92) (hc : ¬b < 32) :
    scan (b :: bs) = (scan bs).map fun r => (.raw b :: r.1, r.2) := by
  rw [scan.eq_def]
  simp only [quoteByte, backslashByte, h34, h92, hc, if_false]
  cases scan bs <;> rfl

theorem scan_escapeByte (b : UInt8) (bs : Bytes) :
    scan (escapeByte b ++ bs) = (scan bs).map fun r => (pieceOf b :: r.1, r.2) := by
  have hex : ∀ n : Fin 32, hexUnit 48 48 (hexDigit (n.val / 16)) (hexDigit (n.val % 16)) =
      some n.val := by decide
  unfold escapeByte
  by_cases h34 : b = 34
  · subst h34; exact scan_short bs (by decide) rfl
  by_cases h92 : b = 92
  · subst h92; exact scan_short bs (by decide) rfl
  by_cases h8 : b = 8
  · subst h8; exact scan_short bs (by decide) rfl
  by_cases h9 : b = 9
  · subst h9; exact scan_short bs (by decide) rfl
  by_cases h10 : b = 10
  · subst h10; exact scan_short bs (by decide) rfl
  by_cases h12 : b = 12
  · subst h12; exact scan_short bs (by decide) rfl
  by_cases h13 : b = 13
  · subst h13; exact scan_short bs (by decide) rfl
  by_cases hc : b < 32
  · have hn : b.toNat < 32 := by simpa [UInt8.lt_iff_toNat_lt] using hc
    simp only [h34, h92, h8, h9, h10, h12, h13, hc, if_true, if_false, pieceOf, or_true]
    exact scan_hex bs (hex ⟨b.toNat, hn⟩)
  · simp only [h34, h92, h8, h9, h10, h12, h13, hc, if_false, pieceOf, or_false]
    exact scan_raw bs h34 h92 hc

theorem scan_write (b rest : Bytes) :
    scan (b.flatMap escapeByte ++ quoteByte :: rest) = some (b.map pieceOf, rest) := by
  induction b with
  | nil => exact scan_quote rest
  | cons b bs ih =>
    rw [List.flatMap_cons, List.append_assoc, scan_escapeByte, ih]
    rfl

theorem join_pieceOf (b : Bytes) : join (b.map pieceOf) = some b := by
  induction b with
  | nil => rfl
  | cons b bs ih =>
    simp only [List.map_cons, pieceOf]
    split
    · have ascii : ∀ n : Fin 128, isTrailing n.val = false ∧ isLeading n.val = false ∧
          encodePoint n.val = [UInt8.ofNat n.val] := by decide
      have hn : b.toNat < 128 := by
        rename_i h
        rcases h with rfl | rfl | h
        · decide
        · decide
        · have : b.toNat < 32 := by simpa [UInt8.lt_iff_toNat_lt] using h
          omega
      obtain ⟨h₁, h₂, h₃⟩ := ascii ⟨b.toNat, hn⟩
      rw [join.eq_def]
      simp [h₁, h₂, h₃, ih]
    · rw [join.eq_def]
      simp [ih]

/-- A written text is read back, whatever follows it. -/
theorem read_write (s : String) (rest : Bytes) :
    read ((write s).tail ++ rest) = some (s, rest) := by
  have h := scan_write (Bytes.ofText s) rest
  simp only [write, List.tail_cons, List.append_assoc, List.singleton_append]
  simp [read, h, join_pieceOf, Bytes.toText?_ofText]

end Text

end Cutover.Json
