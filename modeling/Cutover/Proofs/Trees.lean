import Cutover.Proofs.Forms
import Mathlib.Data.List.DropRight

/-!
# Values and their written forms

A value as a tree, and the grammar of its written forms, with blanks between any two tokens
(`Json.Written`). Texts are kept as the pieces that they are spelled with, so that a tree also
stands for texts that only scan. Main statements: a value is passed over whatever its form
(`Json.skip_written`), and what a reader makes of a value does not depend on its form
(`Json.Reader.reads_int`, `Json.Reader.reads_choice`).
-/

namespace Cutover.Json

/-- Nothing but blanks. -/
def AllBlank (bs : Bytes) : Prop := ∀ b ∈ bs, isBlank b = true

theorem allBlank_nil : AllBlank [] := List.forall_mem_nil _

namespace Text

/-- How the rest of a text is spelled, up to its closing quote: bytes that stand for themselves,
escapes of one letter, and escapes of four hexadecimal digits. -/
inductive Spelled : List Piece → Bytes → Prop where
  | close : Spelled [] [34]
  | raw {b : UInt8} {ps : List Piece} {v : Bytes} : b ≠ 34 → b ≠ 92 → ¬b < 32 → Spelled ps v →
      Spelled (.raw b :: ps) (b :: v)
  | short {e : UInt8} {n : Nat} {ps : List Piece} {v : Bytes} : shortEscape e = some n →
      Spelled ps v →
      Spelled (.unit n :: ps) (92 :: e :: v)
  | hex {a b c d : UInt8} {n : Nat} {ps : List Piece} {v : Bytes} : hexUnit a b c d = some n →
      Spelled ps v →
      Spelled (.unit n :: ps) (92 :: 117 :: a :: b :: c :: d :: v)

/-- A text is scanned as it is spelled. -/
theorem scan_spelled {ps : List Piece} {v : Bytes} (h : Spelled ps v) (rest : Bytes) :
    scan (v ++ rest) = some (ps, rest) := by
  induction h with
  | close => exact scan_quote rest
  | raw h34 h92 hc _ ih => rw [List.cons_append, scan_raw _ h34 h92 hc, ih]; rfl
  | @short e n ps v he _ ih =>
    have hne : e ≠ 117 := by
      rintro rfl
      cases he
    rw [List.cons_append, List.cons_append, scan_short _ hne he, ih]
    rfl
  | hex hn _ ih => simp only [List.cons_append, scan_hex _ hn, ih]; rfl

/-- The text that pieces stand for, if there is one. -/
def value? (ps : List Piece) : Option String := (join ps).bind Bytes.toText?

theorem read_spelled {ps : List Piece} {v : Bytes} (h : Spelled ps v) (rest : Bytes) :
    read (v ++ rest) = (value? ps).map (·, rest) := by
  rw [read, scan_spelled h]
  simp only [Option.bind_eq_bind, Option.bind_some, value?]
  cases join ps with
  | none => rfl
  | some b => cases hb : Bytes.toText? b <;> simp [hb]

/-- A byte is escaped as a piece is spelled. -/
theorem Spelled.escape (b : UInt8) {ps : List Piece} {v : Bytes} (h : Spelled ps v) :
    Spelled (pieceOf b :: ps) (escapeByte b ++ v) := by
  have hex : ∀ n : Fin 32, hexUnit 48 48 (hexDigit (n.val / 16)) (hexDigit (n.val % 16)) =
      some n.val := by decide
  by_cases hshort : b = 34 ∨ b = 92 ∨ b = 8 ∨ b = 9 ∨ b = 10 ∨ b = 12 ∨ b = 13
  · rcases hshort with rfl | rfl | rfl | rfl | rfl | rfl | rfl <;> exact .short rfl h
  · simp only [not_or] at hshort
    obtain ⟨h34, h92, h8, h9, h10, h12, h13⟩ := hshort
    simp only [escapeByte, pieceOf, h34, h92, h8, h9, h10, h12, h13, if_false, false_or]
    by_cases hc : b < 32
    · have hn : b.toNat < 32 := by simpa [UInt8.lt_iff_toNat_lt] using hc
      simp only [hc, if_true]
      exact .hex (hex ⟨b.toNat, hn⟩) h
    · simp only [hc, if_false]
      exact .raw h34 h92 hc h

/-- A written text is spelled with the pieces of its bytes. -/
theorem spelled_write (b : Bytes) : Spelled (b.map pieceOf) (b.flatMap escapeByte ++ [34]) := by
  induction b with
  | nil => exact .close
  | cons b bs ih =>
    rw [List.flatMap_cons, List.append_assoc]
    exact ih.escape b

theorem value?_pieceOf (s : String) : value? ((Bytes.ofText s).map pieceOf) = some s := by
  rw [value?, join_pieceOf, Option.bind_some, Bytes.toText?_ofText]

end Text

/-! ## Trees -/

/-- A value: absent, a truth value, a number, a text, or an array or an object of values. -/
inductive Tree where
  | null
  | bool (b : Bool)
  | number (x : Numeral)
  | text (ps : List Text.Piece)
  | array (items : List Tree)
  | object (members : List (List Text.Piece × Tree))

/-- A part of a written value: a value, a value with the blanks around it, the elements of an array,
a member of an object, or all its members. -/
inductive Part where
  | value (t : Tree)
  | element (t : Tree)
  | elements (ts : List Tree)
  | member (k : List Text.Piece) (t : Tree)
  | members (ms : List (List Text.Piece × Tree))

/-- The grammar of written values. A whole text is an element. -/
inductive Written : Part → Bytes → Prop where
  | null : Written (.value .null) Printer.null
  | bool (b : Bool) : Written (.value (.bool b)) (Printer.bool b)
  | number {x : Numeral} {v : Bytes} : x.Spelled v → Written (.value (.number x)) v
  | text {ps : List Text.Piece} {v : Bytes} : Text.Spelled ps v →
      Written (.value (.text ps)) (34 :: v)
  | noElements {w : Bytes} : AllBlank w → Written (.value (.array [])) (91 :: (w ++ [93]))
  | array {ts : List Tree} {v : Bytes} : Written (.elements ts) v →
      Written (.value (.array ts)) (91 :: (v ++ [93]))
  | noMembers {w : Bytes} : AllBlank w → Written (.value (.object [])) (123 :: (w ++ [125]))
  | object {ms : List (List Text.Piece × Tree)} {v : Bytes} : Written (.members ms) v →
      Written (.value (.object ms)) (123 :: (v ++ [125]))
  | element {t : Tree} {w v w' : Bytes} : AllBlank w → Written (.value t) v → AllBlank w' →
      Written (.element t) (w ++ (v ++ w'))
  | lastElement {t : Tree} {v : Bytes} : Written (.element t) v → Written (.elements [t]) v
  | nextElement {t : Tree} {ts : List Tree} {v u : Bytes} : Written (.element t) v →
      Written (.elements ts) u →
      Written (.elements (t :: ts)) (v ++ 44 :: u)
  | member {k : List Text.Piece} {t : Tree} {w n w' v : Bytes} : AllBlank w → Text.Spelled k n →
      AllBlank w' →
      Written (.element t) v → Written (.member k t) (w ++ 34 :: (n ++ (w' ++ 58 :: v)))
  | lastMember {k : List Text.Piece} {t : Tree} {v : Bytes} : Written (.member k t) v →
      Written (.members [(k, t)]) v
  | nextMember {k : List Text.Piece} {t : Tree} {ms : List (List Text.Piece × Tree)} {v u : Bytes} :
      Written (.member k t) v → Written (.members ms) u →
      Written (.members ((k, t) :: ms)) (v ++ 44 :: u)

/-- The bytes with which the written forms of a value begin. -/
def Tree.Begins : Tree → UInt8 → Prop
  | null, b => b = 110
  | bool c, b => b = if c then 116 else 102
  | number _, b => b = 45 ∨ Numeral.isDigit b = true
  | text _, b => b = 34
  | array _, b => b = 91
  | object _, b => b = 123

theorem Tree.Begins.plain {t : Tree} {b : UInt8} (h : t.Begins b) :
    isBlank b = false ∧ b ≠ 93 ∧ b ≠ 125 := by
  cases t with
  | null | text | array | object =>
    cases h
    decide
  | bool c => cases h; cases c <;> decide
  | number x =>
    rcases h with rfl | h
    · decide
    · refine ⟨(Numeral.not_sign_of_isDigit h).2.2, ?_, ?_⟩ <;> rintro rfl <;> cases h

theorem Written.begins {t : Tree} {v : Bytes} (h : Written (.value t) v) :
    ∃ b bs, v = b :: bs ∧ t.Begins b := by
  cases h with
  | null => exact ⟨_, _, rfl, rfl⟩
  | bool b => cases b <;> exact ⟨_, _, rfl, rfl⟩
  | number h => exact h.cons
  | text | noElements | array | noMembers | object => exact ⟨_, _, rfl, rfl⟩

theorem AllBlank.stops {w rest : Bytes} (hw : AllBlank w) (hrest : Numeral.Stops rest) :
    Numeral.Stops (w ++ rest) := by
  cases w with
  | nil => exact hrest
  | cons b w => exact IsEnd.stops (.inr (.inr (.inr (hw b List.mem_cons_self)))) _

theorem AllBlank.skip {w : Bytes} (hw : AllBlank w) (rest : Bytes) :
    skipBlank (w ++ rest) = skipBlank rest :=
  skipBlank_append hw rest

/-- A byte is taken from behind blanks, if it is the one that is due. -/
theorem AllBlank.take {w : Bytes} (hw : AllBlank w) {b c : UInt8} (hc : isBlank c = false)
    (rest : Bytes) :
    word [b] (skipBlank (w ++ c :: rest)) = if c = b then some rest else none := by
  rw [hw.skip, skipBlank_cons hc]
  rfl

/-! ## Values that are passed over -/

theorem skipGo_congr {fuel : Nat} {a : Awaiting} {outer : List Frame} {bs bs' : Bytes}
    (ha : a ≠ .next ∨ outer ≠ []) (h : skipBlank bs = skipBlank bs') :
    skipGo fuel a outer bs = skipGo fuel a outer bs' := by
  cases fuel with
  | zero => rfl
  | succ fuel =>
    cases a with
    | next =>
      cases outer with
      | nil => exact absurd rfl (ha.resolve_left fun h => h rfl)
      | cons f outer => simp only [skipGo, h]
    | value | firstItem | name | firstName => simp only [skipGo, h]

namespace Frame

def opening : Frame → UInt8
  | array => 91
  | object => 123

/-- What may come behind an opening bracket. -/
def first : Frame → Awaiting
  | array => .firstItem
  | object => .firstName

variable (f : Frame) (fuel : Nat) (outer : List Frame)

private theorem skipGo_open (bs : Bytes) :
    skipGo (fuel + 1) .value outer (f.opening :: bs) = skipGo fuel f.first (f :: outer) bs := by
  cases f
  · have hskip : skipBlank (91 :: bs) = 91 :: bs := skipBlank_cons rfl _
    simp only [opening, skipGo, hskip]
    rfl
  · have hskip : skipBlank (123 :: bs) = 123 :: bs := skipBlank_cons rfl _
    simp only [opening, skipGo, hskip]
    rfl

private theorem skipBlank_close {w : Bytes} (hw : AllBlank w) (rest : Bytes) :
    skipBlank (w ++ f.close :: rest) = f.close :: rest := by
  rw [hw.skip]
  cases f <;> exact skipBlank_cons rfl _

/-- A bracket closes behind an element. -/
private theorem skipGo_close (rest : Bytes) :
    skipGo (fuel + 1) .next (f :: outer) (f.close :: rest) = skipGo fuel .next outer rest := by
  have hskip := f.skipBlank_close allBlank_nil rest
  have hcomma : f.close ≠ 44 := by cases f <;> decide
  rw [List.nil_append] at hskip
  simp only [skipGo, hskip, if_neg hcomma, if_true]

/-- A bracket closes that has just been opened. -/
private theorem skipGo_first_close {w : Bytes} (hw : AllBlank w) (rest : Bytes) :
    skipGo (fuel + 1) f.first (f :: outer) (w ++ f.close :: rest) =
      skipGo fuel .next outer rest := by
  have hskip := f.skipBlank_close hw rest
  cases f <;> simp only [first, skipGo, hskip] <;> rfl

private theorem skipGo_comma (rest : Bytes) :
    skipGo (fuel + 1) .next (f :: outer) (44 :: rest) =
      skipGo fuel f.afterComma (f :: outer) rest := by
  have hskip : skipBlank (44 :: rest) = 44 :: rest := skipBlank_cons rfl _
  simp only [skipGo, hskip, if_true]

/-- Something comes behind an opening bracket. -/
private theorem skipGo_first {b : UInt8} {bs bs' : Bytes} (hbs : skipBlank bs = b :: bs')
    (hb : b ≠ f.close) :
    skipGo (fuel + 1) f.first outer bs = skipGo fuel f.afterComma outer bs := by
  have hskip : skipBlank (b :: bs') = skipBlank bs := by
    rw [← hbs]
    exact List.dropWhile_idempotent ..
  have hcongr : skipGo fuel f.afterComma outer (b :: bs') = skipGo fuel f.afterComma outer bs :=
    skipGo_congr (.inl (by cases f <;> decide)) hskip
  rw [← hcongr]
  cases f with
  | array =>
    have hb : b ≠ 93 := hb
    simp only [first, skipGo, hbs, if_neg hb]
    rfl
  | object =>
    have hb : b ≠ 125 := hb
    simp only [first, skipGo, hbs, if_neg hb]
    rfl

end Frame

/-- A value is passed over within two turns a byte. -/
def SkipsValue (v : Bytes) : Prop :=
  ∃ k ≤ 2 * v.length, ∀ fuel outer rest, Numeral.Stops rest →
    skipGo (fuel + k) .value outer (v ++ rest) = skipGo fuel .next outer rest

/-- As `SkipsValue`, in a bracket and in the state in which an element of it is due. -/
def SkipsOne (f : Frame) (due : Awaiting) (v : Bytes) : Prop :=
  ∃ k ≤ 2 * v.length, ∀ fuel outer rest, Numeral.Stops rest →
    skipGo (fuel + k) due (f :: outer) (v ++ rest) = skipGo fuel .next (f :: outer) rest

/-- What is left in a bracket is passed over together with the end of the bracket. -/
def SkipsRest (f : Frame) (v : Bytes) : Prop :=
  ∃ k ≤ 2 * v.length + 1, ∀ fuel outer rest,
    skipGo (fuel + k) f.afterComma (f :: outer) (v ++ f.close :: rest) =
      skipGo fuel .next outer rest

variable {f : Frame} {u v : Bytes}

theorem stops_close (f : Frame) (rest : Bytes) : Numeral.Stops (f.close :: rest) := by
  cases f
  · exact IsEnd.stops (.inr (.inr (.inl rfl))) _
  · exact IsEnd.stops (.inr (.inl rfl)) _

theorem SkipsOne.last (h : SkipsOne f f.afterComma v) : SkipsRest f v := by
  obtain ⟨k, hk, hskip⟩ := h
  refine ⟨k + 1, Nat.succ_le_succ hk, fun fuel outer rest => ?_⟩
  have heq : fuel + (k + 1) = fuel + 1 + k := by omega
  rw [heq, hskip (fuel + 1) outer _ (stops_close f rest), f.skipGo_close]

theorem SkipsOne.next (h : SkipsOne f f.afterComma v) (hrest : SkipsRest f u) :
    SkipsRest f (v ++ 44 :: u) := by
  obtain ⟨k, hk, hskip⟩ := h
  obtain ⟨l, hl, hskips⟩ := hrest
  refine ⟨l + (1 + k), by simp only [List.length_append, List.length_cons]; omega,
    fun fuel outer rest => ?_⟩
  have heq : fuel + (l + (1 + k)) = fuel + l + 1 + k := by omega
  rw [heq, List.append_assoc, List.cons_append,
    hskip (fuel + l + 1) outer _ (IsEnd.stops (.inl rfl) _), f.skipGo_comma, hskips]

theorem SkipsRest.value {b : UInt8} (h : SkipsRest f v)
    (hfirst : ∀ rest, ∃ bs, skipBlank (v ++ rest) = b :: bs) (hb : b ≠ f.close) :
    SkipsValue (f.opening :: (v ++ [f.close])) := by
  obtain ⟨k, hk, hskip⟩ := h
  refine ⟨k + 2, by simp only [List.length_append, List.length_cons]; omega,
    fun fuel outer rest _ => ?_⟩
  obtain ⟨bs, hbs⟩ := hfirst (f.close :: rest)
  have hbytes : f.opening :: (v ++ [f.close]) ++ rest = f.opening :: (v ++ f.close :: rest) := by
    simp
  rw [hbytes, ← Nat.add_assoc, f.skipGo_open, f.skipGo_first _ _ hbs hb, hskip]

/-- A bracket with nothing in it is passed over. -/
theorem skipsValue_empty (f : Frame) {w : Bytes} (hw : AllBlank w) :
    SkipsValue (f.opening :: (w ++ [f.close])) := by
  refine ⟨2, by simp only [List.length_append, List.length_cons]; omega,
    fun fuel outer rest _ => ?_⟩
  have hbytes : f.opening :: (w ++ [f.close]) ++ rest = f.opening :: (w ++ f.close :: rest) := by
    simp
  rw [hbytes, f.skipGo_open, f.skipGo_first_close _ _ hw]

/-- How a part of a value is passed over. -/
def Part.Skips : Part → Bytes → Prop
  | .value _, v => SkipsValue v
  | .element _, v => ∀ f, SkipsOne f .value v
  | .elements _, v => SkipsRest .array v
  | .member _ _, v => SkipsOne .object .name v
  | .members _, v => SkipsRest .object v

/-- The first byte of an element that is no blank. -/
theorem Written.element_begins {t : Tree} (h : Written (.element t) v) :
    ∃ b, t.Begins b ∧ ∀ rest, ∃ bs, skipBlank (v ++ rest) = b :: bs := by
  cases h with
  | @element _ w v w' hw hv hw' =>
    obtain ⟨b, bs, rfl, hb⟩ := hv.begins
    refine ⟨b, hb, fun rest => ⟨bs ++ w' ++ rest, ?_⟩⟩
    rw [List.append_assoc, hw.skip]
    simpa using skipBlank_cons hb.plain.1 (bs ++ w' ++ rest)

theorem Written.elements_begins {ts : List Tree} (h : Written (.elements ts) v) :
    ∃ b, b ≠ 93 ∧ ∀ rest, ∃ bs, skipBlank (v ++ rest) = b :: bs := by
  cases h with
  | lastElement h =>
    obtain ⟨b, hb, hfirst⟩ := h.element_begins
    exact ⟨b, hb.plain.2.1, hfirst⟩
  | @nextElement _ _ v u h _ =>
    obtain ⟨b, hb, hfirst⟩ := h.element_begins
    refine ⟨b, hb.plain.2.1, fun rest => ?_⟩
    rw [List.append_assoc]
    exact hfirst _

/-- The members of an object begin with a name. -/
theorem Written.member_begins {k : List Text.Piece} {t : Tree} (h : Written (.member k t) v)
    (rest : Bytes) :
    ∃ bs, skipBlank (v ++ rest) = 34 :: bs := by
  cases h with
  | @member _ _ w n w' v hw _ _ _ =>
    refine ⟨n ++ (w' ++ 58 :: v) ++ rest, ?_⟩
    rw [List.append_assoc, hw.skip]
    exact skipBlank_cons rfl _

theorem Written.members_begins {ms : List (List Text.Piece × Tree)} (h : Written (.members ms) v)
    (rest : Bytes) :
    ∃ bs, skipBlank (v ++ rest) = 34 :: bs := by
  cases h with
  | lastMember h => exact h.member_begins rest
  | @nextMember _ _ _ v u h _ =>
    rw [List.append_assoc]
    exact h.member_begins _

/-- A member has a byte at least. -/
theorem Written.length_le {ms : List (List Text.Piece × Tree)} (h : Written (.members ms) v) :
    ms.length ≤ v.length := by
  have hmember {k : List Text.Piece} {t : Tree} {v : Bytes} (h : Written (.member k t) v) :
      0 < v.length := by
    cases h with
    | member => simp only [List.length_append, List.length_cons]; omega
  induction ms generalizing v with
  | nil => exact Nat.zero_le _
  | cons m ms ih =>
    cases h with
    | lastMember h => exact hmember h
    | nextMember h hms =>
      have := ih hms
      simp only [List.length_append, List.length_cons]
      omega

theorem skips_of_written {p : Part} (h : Written p v) : p.Skips v := by
  induction h with
  | null =>
    refine ⟨1, by decide, fun fuel outer rest _ => ?_⟩
    have hskip : skipBlank (Printer.null ++ rest) = 110 :: ([117, 108, 108] ++ rest) :=
      skipBlank_cons rfl _
    simp only [skipGo, hskip]
    rfl
  | bool b =>
    refine ⟨1, by cases b <;> decide, fun fuel outer rest _ => ?_⟩
    cases b with
    | true =>
      have hskip : skipBlank (Printer.bool true ++ rest) = 116 :: ([114, 117, 101] ++ rest) :=
        skipBlank_cons rfl _
      simp only [skipGo, hskip]
      rfl
    | false =>
      have hskip : skipBlank (Printer.bool false ++ rest) = 102 :: ([97, 108, 115, 101] ++ rest) :=
        skipBlank_cons rfl _
      simp only [skipGo, hskip]
      rfl
  | @number x v hx =>
    obtain ⟨b, bs, rfl, hb⟩ := hx.cons
    refine ⟨1, by simp only [List.length_cons]; omega, fun fuel outer rest hrest => ?_⟩
    have hskip : skipBlank (b :: bs ++ rest) = b :: (bs ++ rest) := (hx.starts rest).1
    have hread := Numeral.read_spelled hx hrest
    have hplain : b ≠ 34 ∧ b ≠ 91 ∧ b ≠ 123 ∧ b ≠ 110 ∧ b ≠ 116 ∧ b ≠ 102 := by
      refine ⟨?_, ?_, ?_, ?_, ?_, ?_⟩ <;> rintro rfl <;> rcases hb with hb | hb <;> cases hb
    simp only [skipGo, hskip, hplain, if_false]
    rw [← List.cons_append, hread]
    rfl
  | @text ps v h =>
    refine ⟨1, by simp only [List.length_cons]; omega, fun fuel outer rest _ => ?_⟩
    have hskip : skipBlank (34 :: v ++ rest) = 34 :: (v ++ rest) := skipBlank_cons rfl _
    simp only [skipGo, hskip, if_true, Text.scan_spelled h]
    rfl
  | noElements hw => exact skipsValue_empty .array hw
  | array h ih =>
    obtain ⟨b, hb, hfirst⟩ := h.elements_begins
    exact SkipsRest.value (f := .array) ih hfirst hb
  | noMembers hw => exact skipsValue_empty .object hw
  | object h ih => exact SkipsRest.value (f := .object) ih h.members_begins (by decide)
  | @element t w v w' hw _ hw' ih =>
    intro f
    obtain ⟨k, hk, hskip⟩ := ih
    refine ⟨k, by simp only [List.length_append]; omega, fun fuel outer rest hrest => ?_⟩
    have hbefore : skipBlank (w ++ (v ++ w') ++ rest) = skipBlank (v ++ (w' ++ rest)) := by
      rw [List.append_assoc, hw.skip, List.append_assoc]
    rw [skipGo_congr (.inl (by decide)) hbefore, hskip _ _ _ (hw'.stops hrest)]
    exact skipGo_congr (.inr (List.cons_ne_nil _ _)) (hw'.skip rest)
  | lastElement _ ih => exact (ih .array).last
  | nextElement _ _ ih ihs => exact (ih .array).next ihs
  | @member k t w n w' v hw hk hw' _ ih =>
    obtain ⟨l, hl, hskip⟩ := ih .object
    refine ⟨l + 1, by simp only [List.length_append, List.length_cons]; omega,
      fun fuel outer rest hrest => ?_⟩
    have hname : skipBlank (w ++ 34 :: (n ++ (w' ++ 58 :: v)) ++ rest) =
        34 :: (n ++ (w' ++ 58 :: (v ++ rest))) := by
      rw [List.append_assoc, hw.skip]
      simpa using skipBlank_cons rfl _
    have hcolon : skipBlank (w' ++ 58 :: (v ++ rest)) = 58 :: (v ++ rest) :=
      (hw'.skip _).trans (skipBlank_cons rfl _)
    rw [← Nat.add_assoc, ← hskip fuel outer rest hrest]
    simp only [skipGo, hname, if_true, Text.scan_spelled hk, Option.bind_eq_bind, Option.bind_some,
      hcolon]
    rfl
  | lastMember _ ih => exact SkipsOne.last (f := .object) ih
  | nextMember _ _ ih ihs => exact SkipsOne.next (f := .object) ih ihs

/-- A value is passed over, in whatever form it is written. -/
theorem skip_written {t : Tree} {w v rest : Bytes} (h : Written (.value t) v) (hw : AllBlank w)
    (hrest : Numeral.Stops rest) : skip (w ++ (v ++ rest)) = some rest := by
  obtain ⟨k, hk, hskip⟩ := skips_of_written h
  obtain ⟨fuel, hfuel⟩ : ∃ fuel, 2 * (w ++ (v ++ rest)).length + 2 = fuel + 1 + k := by
    refine ⟨2 * (w ++ (v ++ rest)).length + 1 - k, ?_⟩
    simp only [List.length_append]
    omega
  have hcongr : skipGo (fuel + 1 + k) .value [] (w ++ (v ++ rest)) =
      skipGo (fuel + 1 + k) .value [] (v ++ rest) :=
    skipGo_congr (.inl (by decide)) (hw.skip _)
  rw [skip, hfuel, hcongr, hskip (fuel + 1) [] rest hrest]
  rfl

theorem skip_element {t : Tree} (h : Written (.element t) v) :
    ∃ w, AllBlank w ∧ ∀ rest, Numeral.Stops rest → skip (v ++ rest) = some (w ++ rest) := by
  cases h with
  | @element _ w v w' hw hv hw' =>
    refine ⟨w', hw', fun rest hrest => ?_⟩
    simpa using skip_written hv hw (hw'.stops hrest)

/-! ## Values that are read -/

theorem toOption_bind {ε α β : Type} (x : Except ε α) (f : α → Except ε β) :
    (x >>= f).toOption = x.toOption.bind fun a => (f a).toOption := by
  cases x <;> rfl

theorem toOption_map {ε α β : Type} (x : Except ε α) (f : α → β) :
    (x.map f).toOption = x.toOption.map f := by
  cases x <;> rfl

@[simp] theorem toOption_require {α : Type} (a : Option α) : (require a).toOption = a := by
  cases a <;> rfl

namespace Tree

theorem Begins.eq_null {t : Tree} (h : t.Begins 110) : t = .null := by
  cases t with
  | null => rfl
  | bool c => cases c <;> cases h
  | number x => rcases h with h | h <;> cases h
  | text | array | object => cases h

theorem Begins.eq_text {t : Tree} (h : t.Begins 34) : ∃ ps, t = .text ps := by
  cases t with
  | text ps => exact ⟨ps, rfl⟩
  | bool c => cases c <;> cases h
  | number x => rcases h with h | h <;> cases h
  | null | array | object => cases h

theorem Begins.eq_object {t : Tree} (h : t.Begins 123) : ∃ ms, t = .object ms := by
  cases t with
  | object ms => exact ⟨ms, rfl⟩
  | bool c => cases c <;> cases h
  | number x => rcases h with h | h <;> cases h
  | null | text | array => cases h

theorem Begins.eq_number {t : Tree} {b : UInt8} (h : t.Begins b) {bs : Bytes}
    (hb : startsNumeral (b :: bs) = true) : ∃ x, t = .number x := by
  cases t with
  | number x => exact ⟨x, rfl⟩
  | bool c => cases h; cases c <;> cases hb
  | null | text | array | object => cases h; cases hb

/-- The integer between two bounds that a value is. -/
def int? (lo hi : Int) : Tree → Option Int
  | number x => x.value?.bind fun
    | .int n => if lo ≤ n ∧ n ≤ hi then some n else none
    | .float _ => none
  | _ => none

def null? : Tree → Option Unit
  | null => some ()
  | _ => none

def text? : Tree → Option String
  | text ps => Text.value? ps
  | _ => none

/-- What a value names: by a text, or by the name of the only member of an object, which is
absent. -/
def choice? {α : Type} (ofName? : String → Option α) : Tree → Option α
  | text ps => (Text.value? ps).bind ofName?
  | object [(k, null)] => (Text.value? k).bind ofName?
  | _ => none

theorem choice?_object_singleton {α : Type} (ofName? : String → Option α) (k : List Text.Piece)
    (t : Tree) :
    (object [(k, t)]).choice? ofName? =
      (Text.value? k).bind fun s => t.null?.bind fun _ => ofName? s := by
  cases t with
  | null => rfl
  | _ => cases Text.value? k <;> rfl

end Tree

namespace Reader

variable {α β : Type} {r : Reader α} {t : Tree} {a? : Option α}

/-- What a reader makes of a value, whatever its written form, the blanks before it and what follows
it: the reader takes the value off the front, or refuses it. -/
def Reads (r : Reader α) (t : Tree) (a? : Option α) : Prop :=
  ∀ ⦃w v rest⦄, AllBlank w → Written (.value t) v → Numeral.Stops rest →
    (r (w ++ (v ++ rest))).toOption = a?.map (·, rest)

theorem Reads.map (h : r.Reads t a?) (f : α → β) :
    Reads (fun bs => (r bs).map fun (a, rest) => (f a, rest)) t (a?.map f) := by
  intro w v rest hw hv hrest
  rw [toOption_map, h hw hv hrest]
  cases a? <;> rfl

/-- A reader leaves the blanks behind an element. -/
theorem Reads.element (h : r.Reads t a?) (hv : Written (.element t) v) :
    ∃ w, AllBlank w ∧ ∀ rest, Numeral.Stops rest →
    (r (v ++ rest)).toOption = a?.map (·, w ++ rest) := by
  cases hv with
  | @element _ w v w' hw hv hw' =>
    refine ⟨w', hw', fun rest hrest => ?_⟩
    simpa using h hw hv (hw'.stops hrest)

/-- How a value begins behind blanks. -/
private theorem skipBlank_value {w v : Bytes} (rest : Bytes) (hw : AllBlank w)
    (hv : Written (.value t) v) :
    ∃ b bs, v = b :: bs ∧ t.Begins b ∧ skipBlank (w ++ (v ++ rest)) = b :: (bs ++ rest) := by
  obtain ⟨b, bs, rfl, hb⟩ := hv.begins
  exact ⟨b, bs, rfl, hb, (hw.skip _).trans (skipBlank_cons hb.plain.1 _)⟩

theorem reads_int (lo hi : Int) (t : Tree) : (int lo hi).Reads t (t.int? lo hi) := by
  intro w v rest hw hv hrest
  obtain ⟨b, bs, hcons, hb, hskip⟩ := skipBlank_value rest hw hv
  cases hstarts : startsNumeral (b :: (bs ++ rest)) with
  | true =>
    obtain ⟨x, rfl⟩ := hb.eq_number hstarts
    cases hv with
    | number hx =>
      have hread : Number.read (b :: (bs ++ rest)) = x.value?.map (·, rest) := by
        rw [← List.cons_append, ← hcons]
        exact hx.read_number hrest
      simp only [int, hskip, hstarts, if_true, hread, Tree.int?]
      cases x.value? with
      | none => rfl
      | some n =>
        cases n with
        | float f => rfl
        | int n =>
          change (if lo ≤ n ∧ n ≤ hi then pure (n, rest) else throw .mismatched :
            Except Problem (Int × Bytes)).toOption =
            (if lo ≤ n ∧ n ≤ hi then some n else none).map (·, rest)
          split <;> rfl
  | false =>
    have hnone : t.int? lo hi = none := by
      cases t with
      | number x =>
        rcases hb with rfl | hb
        · cases hstarts
        · simp [startsNumeral, hb] at hstarts
      | _ => rfl
    simp only [int, hskip, hstarts, hnone]
    rfl

theorem reads_null (t : Tree) : null.Reads t t.null? := by
  intro w v rest hw hv hrest
  obtain ⟨b, bs, hcons, hb, hskip⟩ := skipBlank_value rest hw hv
  by_cases h110 : b = 110
  · subst h110
    obtain rfl := hb.eq_null
    cases hv
    cases hcons
    simp only [null, hskip, if_true]
    rfl
  · have hnone : t.null? = none := by
      cases t with
      | null => exact absurd hb h110
      | _ => rfl
    simp only [null, hskip, if_neg h110, hnone]
    rfl

theorem reads_text (t : Tree) : text.Reads t t.text? := by
  intro w v rest hw hv hrest
  obtain ⟨b, bs, hcons, hb, hskip⟩ := skipBlank_value rest hw hv
  by_cases h34 : b = 34
  · subst h34
    obtain ⟨ps, rfl⟩ := hb.eq_text
    cases hv with
    | text h =>
      cases hcons
      simp only [text, hskip, if_true, toOption_require, Text.read_spelled h, Tree.text?]
  · have hnone : t.text? = none := by
      cases t with
      | text => exact absurd hb h34
      | _ => rfl
    simp only [text, hskip, if_neg h34, hnone]
    rfl

theorem toOption_refine (r : Reader α) (check : α → Option β) (bs : Bytes) :
    (refine r check bs).toOption = (r bs).toOption.bind fun (a, rest) =>
      (check a).map (·, rest) := by
  rw [refine, toOption_bind]
  congr 1
  funext p
  obtain ⟨a, rest⟩ := p
  cases hcheck : check a <;> simp only [hcheck] <;> rfl

/-- What is read of a member whose value is to be absent. -/
private def absentMember (bs : Bytes) : Option (String × Bytes) :=
  (text bs).toOption.bind fun (s, rest) => (word [58] (skipBlank rest)).bind fun rest =>
    (null rest).toOption.map fun (_, rest) => (s, rest)

private theorem absentMember_written {k : List Text.Piece} {t : Tree} {v : Bytes}
    (hv : Written (.member k t) v) :
    ∃ w, AllBlank w ∧ ∀ rest, Numeral.Stops rest →
      absentMember (v ++ rest) =
        (Text.value? k).bind fun s => t.null?.map fun _ => (s, w ++ rest) := by
  cases hv with
  | @member _ _ w n w' v hw hk hw' hv =>
    obtain ⟨w'', hw'', hnull⟩ := (reads_null t).element hv
    refine ⟨w'', hw'', fun rest hrest => ?_⟩
    have hstops : Numeral.Stops (w' ++ 58 :: (v ++ rest)) := by
      refine hw'.stops fun b hb => ?_
      cases Option.mem_some.mp hb
      decide
    have htext : (text (w ++ 34 :: (n ++ (w' ++ 58 :: v)) ++ rest)).toOption =
        (Text.value? k).map (·, w' ++ 58 :: (v ++ rest)) := by
      simpa [Tree.text?] using reads_text (.text k) hw (.text hk) hstops
    have hcolon : word [58] (skipBlank (w' ++ 58 :: (v ++ rest))) = some (v ++ rest) :=
      hw'.take rfl _
    rw [absentMember, htext]
    cases Text.value? k with
    | none => rfl
    | some s =>
      simp only [Option.map_some, Option.bind_some, hcolon, hnull rest hrest]
      cases t.null? <;> rfl

/-- An object is read as a choice by the name of its first member, if it is the only one. -/
private theorem choice_object {ofName? : String → Option α} {bs rest : Bytes}
    (hbs : skipBlank bs = 123 :: rest) :
    (choice ofName? bs).toOption = (absentMember rest).bind fun (s, rest) =>
      (ofName? s).bind fun a =>
      (word [125] (skipBlank rest)).map (a, ·) := by
  have h34 : (123 : UInt8) ≠ 34 := by decide
  have hpure {ε γ : Type} (a : γ) : (pure a : Except ε γ).toOption = some a := rfl
  simp only [choice, hbs, if_neg h34, if_true, toOption_bind, toOption_refine, toOption_require,
    hpure, absentMember, Option.map_eq_bind, Option.bind_assoc, Option.bind_some, Function.comp_def]
  congr 1
  funext p
  obtain ⟨s, rest⟩ := p
  cases hs : ofName? s <;> simp

/-- An object is read as a choice in whatever form it is written. -/
private theorem choice_written (ofName? : String → Option α) {ms : List (List Text.Piece × Tree)}
    {v rest bs : Bytes}
    (hv : Written (.value (.object ms)) (123 :: v)) (hbs : skipBlank bs = 123 :: (v ++ rest)) :
    (choice ofName? bs).toOption = ((Tree.object ms).choice? ofName?).map (·, rest) := by
  rw [choice_object hbs]
  cases hv with
  | @noMembers w hw =>
    have hnone : absentMember (w ++ [125] ++ rest) = none := by
      rw [List.append_assoc, absentMember, text, hw.skip, List.singleton_append, skipBlank_cons rfl]
      rfl
    rw [hnone]
    rfl
  | @object ms u hu =>
    rw [List.append_assoc, List.singleton_append]
    cases hu with
    | @lastMember k t v hv =>
      obtain ⟨w, hw, hmember⟩ := absentMember_written hv
      have hclose : word [125] (skipBlank (w ++ 125 :: rest)) = some rest := hw.take rfl _
      rw [hmember _ (IsEnd.stops (.inr (.inl rfl)) _), Tree.choice?_object_singleton]
      cases Text.value? k with
      | none => rfl
      | some s => cases t.null? <;> cases hs : ofName? s <;> simp [hs, hclose]
    | @nextMember k t ms v u hv hms =>
      obtain ⟨w, hw, hmember⟩ := absentMember_written hv
      have hcomma : word [125] (skipBlank (w ++ 44 :: (u ++ 125 :: rest))) = none := hw.take rfl _
      have hnone : (Tree.object ((k, t) :: ms)).choice? ofName? = none := by
        cases ms with
        | nil => cases hms
        | cons => cases t <;> rfl
      rw [List.append_assoc, List.cons_append, hmember _ (IsEnd.stops (.inl rfl) _), hnone]
      cases Text.value? k with
      | none => rfl
      | some s => cases t.null? <;> cases hs : ofName? s <;> simp [hs, hcomma]

theorem reads_choice (ofName? : String → Option α) (t : Tree) :
    (choice ofName?).Reads t (t.choice? ofName?) := by
  intro w v rest hw hv hrest
  obtain ⟨b, bs, hcons, hb, hskip⟩ := skipBlank_value rest hw hv
  by_cases h34 : b = 34
  · subst h34
    obtain ⟨ps, rfl⟩ := hb.eq_text
    have htext := reads_text (.text ps) allBlank_nil hv hrest
    rw [List.nil_append, hcons, List.cons_append] at htext
    simp only [choice, hskip, if_true, toOption_refine, htext, Tree.text?, Tree.choice?]
    cases Text.value? ps with
    | none => rfl
    | some s => rfl
  by_cases h123 : b = 123
  · subst h123
    obtain ⟨ms, rfl⟩ := hb.eq_object
    exact choice_written ofName? (hcons ▸ hv) hskip
  · have hnone : t.choice? ofName? = none := by
      cases t with
      | text => exact absurd hb h34
      | object => exact absurd hb h123
      | _ => rfl
    simp only [choice, hskip, if_neg h34, if_neg h123, hnone]
    rfl

end Reader

end Cutover.Json
