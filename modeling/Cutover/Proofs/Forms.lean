import Cutover.Json.Record
import Cutover.Proofs.Numerals

/-!
# Written values are read back

A written value is read back, with blanks before it and whatever may end it behind it
(`Json.Reader.Gives`): numbers, texts, names and truth values. An object may have blanks between its
tokens (`Json.Layout`); the compact form and the form of one member a line are two such layouts. A
written form is UTF-8, and what holds of a record whatever is read into a field holds of a record
that was read. Main statements: an object sets the fields that its members name, in any layout
(`Json.Record.decode_object`), and `Json.Record.keeps_of_decode`.
-/

namespace Cutover

/-- Whether a number is a signed integer of 64 bits. -/
def IsSmall (n : Int) : Prop := Int64.minValue.toInt ≤ n ∧ n ≤ Int64.maxValue.toInt

instance (n : Int) : Decidable (IsSmall n) := inferInstanceAs (Decidable (_ ∧ _))

namespace Json

theorem ok_bind {ε α β : Type} (a : α) (f : α → Except ε β) : (.ok a >>= f) = f a := rfl

theorem ok_of_bind {ε α β : Type} {x : Except ε α} {f : α → Except ε β} {b : β}
    (h : (x >>= f) = .ok b) : ∃ a, x = .ok a ∧ f a = .ok b := by
  cases x with
  | error e => cases h
  | ok a => exact ⟨a, rfl, h⟩

theorem ok_of_map {ε α β : Type} {x : Except ε α} {f : α → β} {b : β} (h : x.map f = .ok b) :
    ∃ a, x = .ok a ∧ f a = b := by
  cases x with
  | error e => cases h
  | ok a => exact ⟨a, rfl, Except.ok.inj h⟩

theorem skipBlank_cons {b : UInt8} (h : isBlank b = false) (bs : Bytes) :
    skipBlank (b :: bs) = b :: bs :=
  List.dropWhile_cons_of_neg (by simp [h])

theorem skipBlank_append {pre : Bytes} (h : ∀ b ∈ pre, isBlank b = true) (bs : Bytes) :
    skipBlank (pre ++ bs) = skipBlank bs :=
  List.dropWhile_append_of_pos h

/-- A byte that may follow a value: a comma, a brace, a bracket or a blank. -/
def IsEnd (b : UInt8) : Prop := b = 44 ∨ b = 125 ∨ b = 93 ∨ isBlank b = true

/-- What may follow a value may follow a number. -/
theorem IsEnd.stops {b : UInt8} (h : IsEnd b) (rest : Bytes) : Numeral.Stops (b :: rest) := by
  intro c hc
  cases Option.mem_some.mp hc
  rcases h with rfl | rfl | rfl | h
  · decide
  · decide
  · decide
  · simp only [isBlank, Bool.or_eq_true, beq_iff_eq] at h
    rcases h with ((rfl | rfl) | rfl) | rfl <;> decide

/-! ## Numbers -/

namespace Numeral

/-- No blank is passed over in front of a numeral, and it is taken for one. -/
theorem Spelled.starts {x : Numeral} {v : Bytes} (h : Spelled x v) (rest : Bytes) :
    skipBlank (v ++ rest) = v ++ rest ∧ startsNumeral (v ++ rest) = true := by
  obtain ⟨b, bs, rfl, rfl | hb⟩ := h.cons
  · exact ⟨skipBlank_cons rfl _, rfl⟩
  · exact ⟨skipBlank_cons (not_sign_of_isDigit hb).2.2 _, by simp [startsNumeral, hb]⟩

/-- What stands for a number is read as it is spelled. -/
theorem Spelled.read_number {x : Numeral} {v rest : Bytes} (h : Spelled x v) (hrest : Stops rest) :
    Number.read (v ++ rest) = x.value?.map (·, rest) := by
  simp only [Number.read, read_spelled h hrest]
  cases hx : x.value? <;> simp [hx]

theorem value?_print {n : Int} (hlo : Int64.minValue.toInt ≤ n) (hhi : n < UInt64.size) :
    value? ⟨decide (n < 0), Decimal.digits n.natAbs, none, none⟩ = some (.int n) := by
  have hmin : Int64.minValue.toInt = -9223372036854775808 := rfl
  simp only [hmin, UInt64.size] at hlo hhi
  unfold value?
  simp only [Decimal.ofDigits_digits, Option.isNone_none, Bool.and_self, if_true]
  by_cases hneg : n < 0
  · have hbound : 0 < n.natAbs ∧ n.natAbs ≤ UInt64.size / 2 := by
      simp only [UInt64.size]
      omega
    have heq : -(n.natAbs : Int) = n := by omega
    simp only [hneg, decide_true, if_true, hbound, Bool.and_self, heq]
  · have hbound : n.natAbs < UInt64.size := by
      simp only [UInt64.size]
      omega
    have heq : (n.natAbs : Int) = n := by omega
    simp only [hneg, decide_false, hbound, if_true, heq]
    rfl

end Numeral

/-! ## Values -/

namespace Reader

variable {α β : Type}

/-- The bytes are read as a value, with blanks before them and what may follow a value behind
them. -/
def Gives (r : Reader α) (v : Bytes) (a : α) : Prop :=
  ∀ pre b rest, (∀ c ∈ pre, isBlank c = true) → IsEnd b →
    r (pre ++ v ++ b :: rest) = .ok (a, b :: rest)

/-- A reader that begins behind blanks gives what it gives without them. -/
theorem Gives.of_skip {r : Reader α} {v : Bytes} {a : α}
    (hskip : ∀ bs bs' : Bytes, skipBlank bs = skipBlank bs' → r bs = r bs')
    (h : ∀ b rest, IsEnd b → r (v ++ b :: rest) = .ok (a, b :: rest)) : r.Gives v a := by
  intro pre b rest hpre hb
  rw [List.append_assoc, hskip _ _ (skipBlank_append hpre _)]
  exact h b rest hb

theorem Gives.map {r : Reader α} {v : Bytes} {a : α} (h : r.Gives v a) (f : α → β) :
    Gives (fun bs => (r bs).map fun (a, rest) => (f a, rest)) v (f a) := by
  intro pre b rest hpre hb
  simp only [h pre b rest hpre hb]
  rfl

theorem int_gives {lo hi n : Int} (hlo : Int64.minValue.toInt ≤ n) (hhi : n < UInt64.size)
    (h : lo ≤ n ∧ n ≤ hi) :
    (int lo hi).Gives (Printer.int n) n := by
  refine .of_skip (fun bs bs' hskip => by simp only [int, hskip]) fun b rest hb => ?_
  have hskip := (Numeral.spelled_int n).starts (b :: rest)
  have hvalue : Number.read (Printer.int n ++ b :: rest) = some (.int n, b :: rest) := by
    rw [(Numeral.spelled_int n).read_number (hb.stops rest), Numeral.value?_print hlo hhi]
    rfl
  unfold int
  simp only [hskip.1, hskip.2, if_true, hvalue, require]
  exact if_pos h

/-- A written integer of 64 bits is read back. -/
theorem int64_gives {n : Int} (h : IsSmall n) : int64.Gives (Printer.int n) n := by
  have hmax : Int64.maxValue.toInt < UInt64.size := by decide
  exact int_gives h.1 (Int.lt_of_le_of_lt h.2 hmax) h

/-- A written unsigned integer of 64 bits is read back. -/
theorem nat64_gives {n : Nat} (h : n < UInt64.size) : nat64.Gives (Printer.nat n) n := by
  have hprint : Printer.int (n : Int) = Printer.nat n := by simp [Printer.int, Int.not_ofNat_neg]
  have hmin : Int64.minValue.toInt ≤ 0 := by decide
  have hhi : (n : Int) < UInt64.size := Int.ofNat_lt.mpr h
  have hint : (int 0 ((UInt64.size : Nat) - 1)).Gives (Printer.int n) n :=
    int_gives (Int.le_trans hmin (Int.natCast_nonneg n)) hhi
      ⟨Int.natCast_nonneg n, Int.le_sub_one_of_lt hhi⟩
  rw [hprint] at hint
  exact hint.map Int.toNat

/-- A written text is read back. -/
theorem text_gives (s : String) : text.Gives (Printer.text s) s := by
  refine .of_skip (fun bs bs' hskip => by simp only [text, hskip]) fun b rest _ => ?_
  have hread := Text.read_write s (b :: rest)
  have hcons : Printer.text s ++ b :: rest = 34 :: ((Text.write s).tail ++ b :: rest) := rfl
  rw [text, hcons, skipBlank_cons rfl]
  simp only [if_true, hread, require]

/-- A written truth value is read back. -/
theorem bool_gives (b : Bool) : bool.Gives (Printer.bool b) b := by
  refine .of_skip (fun bs bs' hskip => by simp only [bool, hskip]) fun c rest _ => ?_
  cases b with
  | false =>
    change bool (102 :: ([97, 108, 115, 101] ++ c :: rest)) = _
    rw [bool, skipBlank_cons rfl]
    rfl
  | true =>
    change bool (116 :: ([114, 117, 101] ++ c :: rest)) = _
    rw [bool, skipBlank_cons rfl]
    rfl

/-- A written name is read back as what it names. -/
theorem choice_gives {ofName? : String → Option α} {s : String} {a : α} (h : ofName? s = some a) :
    (choice ofName?).Gives (Printer.text s) a := by
  refine .of_skip (fun bs bs' hskip => by simp only [choice, hskip]) fun b rest hb => ?_
  have hcons : Printer.text s ++ b :: rest = 34 :: ((Text.write s).tail ++ b :: rest) := rfl
  have htext : text (34 :: ((Text.write s).tail ++ b :: rest)) = .ok (s, b :: rest) :=
    text_gives s [] b rest (by simp) hb
  rw [choice, hcons, skipBlank_cons rfl]
  simp only [if_true, refine, htext, ok_bind, h]
  rfl

/-- An integer that is read is within its bounds. -/
theorem int_bounds {lo hi n : Int} {bs rest : Bytes} (h : int lo hi bs = .ok (n, rest)) :
    lo ≤ n ∧ n ≤ hi := by
  unfold int at h
  dsimp only at h
  split at h
  · obtain ⟨⟨number, after⟩, -, h⟩ := ok_of_bind h
    cases number with
    | float f => cases h
    | int m =>
      dsimp only at h
      split at h
      · next hbounds =>
        cases h
        exact hbounds
      · cases h
  · cases h

theorem nat64_lt {n : Nat} {bs rest : Bytes} (h : nat64 bs = .ok (n, rest)) : n < UInt64.size := by
  obtain ⟨⟨m, after⟩, hint, heq⟩ := ok_of_map h
  cases heq
  have := int_bounds hint
  simp only [UInt64.size] at this ⊢
  omega

end Reader

/-! ## Objects -/

/-- Where blanks stand in an object. -/
structure Layout where
  /-- What stands before a name. -/
  gap : Bytes
  /-- What stands before a value. -/
  space : Bytes
  /-- What stands before the closing brace. -/
  closing : Bytes
  gap_blank : ∀ b ∈ gap, isBlank b = true
  space_blank : ∀ b ∈ space, isBlank b = true
  closing_blank : ∀ b ∈ closing, isBlank b = true

namespace Layout

/-- No blanks at all. -/
def compact : Layout where
  gap := []
  space := []
  closing := []
  gap_blank := List.forall_mem_nil _
  space_blank := List.forall_mem_nil _
  closing_blank := List.forall_mem_nil _

/-- One member a line, indented by two blanks. -/
def byLine : Layout where
  gap := [10, 32, 32]
  space := [32]
  closing := [10]
  gap_blank := by simp [isBlank]
  space_blank := by simp [isBlank]
  closing_blank := by simp [isBlank]

/-- A member with what follows it. -/
def member (l : Layout) (m : String × Bytes) (rest : Bytes) : Bytes :=
  l.gap ++ (Printer.text m.1 ++ 58 :: (l.space ++ m.2 ++ rest))

/-- The members that follow a value, up to the end of the object. -/
def after (l : Layout) : List (String × Bytes) → Bytes
  | [] => l.closing ++ [125]
  | m :: ms => 44 :: l.member m (l.after ms)

def object (l : Layout) : List (String × Bytes) → Bytes
  | [] => 123 :: (l.closing ++ [125])
  | m :: ms => 123 :: l.member m (l.after ms)

variable {l : Layout}

theorem member_append (m : String × Bytes) (rest tail : Bytes) :
    l.member m rest ++ tail = l.member m (rest ++ tail) := by
  simp only [member, List.append_assoc, List.cons_append]

/-- What follows a value begins with what may follow a value. -/
theorem after_cons (ms : List (String × Bytes)) (tail : Bytes) :
    ∃ b rest, l.after ms ++ tail = b :: rest ∧ IsEnd b := by
  cases ms with
  | nil =>
    have hblank := l.closing_blank
    rw [after]
    cases hclosing : l.closing with
    | nil => exact ⟨125, tail, rfl, .inr (.inl rfl)⟩
    | cons c cs =>
      refine ⟨c, cs ++ [125] ++ tail, rfl, .inr (.inr (.inr (hblank c ?_)))⟩
      rw [hclosing]
      exact List.mem_cons_self
  | cons m ms => exact ⟨44, l.member m (l.after ms) ++ tail, rfl, .inl rfl⟩

theorem length_le_after (ms : List (String × Bytes)) : ms.length < (l.after ms).length := by
  induction ms with
  | nil => simp [after]
  | cons m ms ih =>
    simp only [after, member, List.length_cons, List.length_append]
    omega

/-- Members with commas between them and the end of the object behind them. -/
theorem separated_members (l : Layout) (line indent : Bytes) (hgap : l.gap = line ++ indent)
    (m : String × Bytes) (ms : List (String × Bytes)) :
    line ++ (Printer.separated (44 :: line)
      ((m :: ms).map fun (k, v) => indent ++ (Printer.text k ++ 58 :: (l.space ++ v))) ++
        (l.closing ++ [125])) = l.member m (l.after ms) := by
  induction ms generalizing m with
  | nil => simp [Printer.separated, member, after, hgap]
  | cons n ms ih =>
    have hnext := ih n
    simp only [List.map_cons] at hnext ⊢
    rw [Printer.separated, after, ← hnext]
    simp [member, hgap]

theorem object_compact (ms : List (String × Bytes)) : Printer.object ms = compact.object ms := by
  cases ms with
  | nil => rfl
  | cons m ms => exact congrArg (123 :: ·) (separated_members compact [] [] rfl m ms)

theorem object_byLine (m : String × Bytes) (ms : List (String × Bytes)) :
    Printer.lines (m :: ms) = byLine.object (m :: ms) := by
  have h := separated_members byLine [10] [32, 32] rfl m ms
  rw [object, ← h, Printer.lines]
  simp [byLine]

end Layout

/-! ## Records -/

namespace Field

variable {α β : Type} {r : Reader β} {name : String} {required : Bool} {set : β → α → α}

/-- A field with one name takes what its reader gives. -/
theorem gives {v : Bytes} {b : β} (h : r.Gives v b) :
    (of name required r set).read.Gives v (set b) :=
  h.map set

/-- What holds of a record goes on to hold whatever is read into the field. -/
def Keeps (P : α → Prop) (f : Field α) : Prop :=
  ∀ bs set rest, f.read bs = .ok (set, rest) → ∀ a, P a → P (set a)

theorem keeps_of {P : α → Prop} (h : ∀ bs b rest, r bs = .ok (b, rest) → ∀ a, P a → P (set b a)) :
    (of name required r set).Keeps P := by
  intro bs _ rest hread
  obtain ⟨⟨b, after⟩, hread, heq⟩ := ok_of_map hread
  cases heq
  exact h bs b rest hread

end Field

namespace Record

variable {α : Type} {fields : List (Field α)} {r : Record α} {seen : List Nat} {a b : α}
  {l : Layout}
  {fuel : Nat}

/-- Members set fields that have not been seen, each to what its value is read as, and none that has
to be there is left out. -/
inductive Sets (fields : List (Field α)) : List Nat → α → List (String × Bytes) → α → Prop where
  | nil {seen : List Nat} {a : α} : complete fields seen = true → Sets fields seen a [] a
  | cons {seen : List Nat} {a b : α} {name : String} {v : Bytes} {ms : List (String × Bytes)}
      {f : Field α}
      {i : Nat} {set : α → α} : named? fields name = some (f, i) → seen.contains i = false →
      f.read.Gives v set → Sets fields (i :: seen) (set a) ms b →
      Sets fields seen a ((name, v) :: ms) b

theorem membersGo_congr {bs bs' : Bytes} (h : skipBlank bs = skipBlank bs') :
    membersGo fields fuel seen a bs = membersGo fields fuel seen a bs' := by
  cases fuel with
  | zero => rfl
  | succ fuel => simp only [membersGo, h]

/-- What is read behind a member: another one, or the end of the object. -/
def behind (fields : List (Field α)) (fuel : Nat) (seen : List Nat) (a : α) (bs : Bytes) :
    Except Problem (α × Bytes) :=
  match skipBlank bs with
  | [] => .error .malformed
  | b :: rest =>
    if b = 44 then membersGo fields fuel seen a rest
    else if b = 125 then if complete fields seen then .ok (a, rest) else .error .mismatched
    else .error .malformed

theorem behind_comma {bs rest : Bytes} (h : skipBlank bs = 44 :: rest) :
    behind fields fuel seen a bs = membersGo fields fuel seen a rest := by
  simp only [behind, h, if_true]

theorem behind_close {bs rest : Bytes} (h : skipBlank bs = 125 :: rest) :
    behind fields fuel seen a bs =
      if complete fields seen then .ok (a, rest) else .error .mismatched := by
  simp only [behind, h]
  rfl

theorem skipBlank_member (m : String × Bytes) (rest : Bytes) :
    skipBlank (l.member m rest) = Printer.text m.1 ++ 58 :: (l.space ++ m.2 ++ rest) := by
  rw [Layout.member, skipBlank_append l.gap_blank]
  exact skipBlank_cons rfl _

/-- A written member sets its field, and then comes the next member or the end. -/
theorem membersGo_member {name : String} {f : Field α} {i : Nat} {v rest : Bytes} {set : α → α}
    (hname : named? fields name = some (f, i)) (hseen : seen.contains i = false)
    (hread : f.read (l.space ++ v ++ rest) = .ok (set, rest)) :
    membersGo fields (fuel + 1) seen a (l.member (name, v) rest) =
      behind fields fuel (i :: seen) (set a) rest := by
  have hquote : word [34] (skipBlank (l.member (name, v) rest)) =
      some ((Text.write name).tail ++ 58 :: (l.space ++ v ++ rest)) := by
    rw [skipBlank_member]
    rfl
  have hcolon : word [58] (skipBlank (58 :: (l.space ++ v ++ rest))) =
      some (l.space ++ v ++ rest) := by
    rw [skipBlank_cons rfl]
    rfl
  rw [membersGo]
  simp only [hquote, require, ok_bind, Text.read_write, hname, hseen, hcolon, hread,
    Bool.false_eq_true, if_false]
  rfl

/-- The members of an object set their fields, in any layout and whatever follows the object. -/
theorem membersGo_sets (tail : Bytes) {m : String × Bytes} {ms : List (String × Bytes)}
    (h : Sets fields seen a (m :: ms) b) (hfuel : ms.length < fuel) :
    membersGo fields fuel seen a (l.member m (l.after ms ++ tail)) = .ok (b, tail) := by
  induction ms generalizing m seen a fuel with
  | nil =>
    obtain ⟨fuel, rfl⟩ := Nat.exists_eq_succ_of_ne_zero (Nat.ne_of_gt hfuel)
    cases h with
    | @cons _ _ _ name v _ f i set hname hseen hread hrest =>
      cases hrest with
      | nil hcomplete =>
        obtain ⟨c, rest, hafter, hend⟩ := Layout.after_cons (l := l) [] tail
        have hvalue := hread l.space c rest l.space_blank hend
        have hclose : skipBlank (l.after [] ++ tail) = 125 :: tail := by
          rw [Layout.after, List.append_assoc, skipBlank_append l.closing_blank]
          exact skipBlank_cons rfl _
        rw [← hafter] at hvalue
        rw [membersGo_member hname hseen hvalue, behind_close hclose]
        exact if_pos hcomplete
  | cons n ms ih =>
    obtain ⟨fuel, rfl⟩ := Nat.exists_eq_succ_of_ne_zero (Nat.ne_of_gt (Nat.zero_lt_of_lt hfuel))
    cases h with
    | @cons _ _ _ name v _ f i set hname hseen hread hrest =>
      obtain ⟨c, rest, hafter, hend⟩ := Layout.after_cons (l := l) (n :: ms) tail
      have hvalue := hread l.space c rest l.space_blank hend
      have hcomma : skipBlank (l.after (n :: ms) ++ tail) =
          44 :: l.member n (l.after ms ++ tail) := by
        rw [Layout.after, List.cons_append, Layout.member_append]
        exact skipBlank_cons rfl _
      rw [← hafter] at hvalue
      rw [membersGo_member hname hseen hvalue, behind_comma hcomma]
      exact ih hrest (Nat.lt_of_succ_lt_succ hfuel)

theorem read_object (tail : Bytes) {ms : List (String × Bytes)}
    (h : Sets r.fields [] r.blank ms a) :
    r.read (l.object ms ++ tail) = .ok (a, tail) := by
  cases ms with
  | nil =>
    cases h with
    | nil hcomplete =>
      have hclose : skipBlank (l.closing ++ [125] ++ tail) = 125 :: tail := by
        rw [List.append_assoc, skipBlank_append l.closing_blank]
        exact skipBlank_cons rfl _
      rw [Layout.object, read, List.cons_append, skipBlank_cons rfl]
      simp only [if_true, hclose]
      exact if_pos hcomplete
  | cons m ms =>
    let rest := l.member m (l.after ms ++ tail)
    obtain ⟨behind, hquote⟩ : ∃ behind, skipBlank rest = 34 :: behind := ⟨_, skipBlank_member ..⟩
    have hfuel : ms.length < rest.length + 1 := by
      have := Layout.length_le_after (l := l) ms
      simp only [rest, Layout.member, List.length_append, List.length_cons]
      omega
    have hmembers : membersGo r.fields (rest.length + 1) [] r.blank (34 :: behind) =
        .ok (a, tail) := by
      have hskip : skipBlank (34 :: behind) = skipBlank rest :=
        (skipBlank_cons rfl _).trans hquote.symm
      rw [membersGo_congr hskip]
      exact membersGo_sets tail h hfuel
    rw [Layout.object, read, List.cons_append, Layout.member_append, skipBlank_cons rfl]
    simp only [if_true]
    rw [hquote]
    exact hmembers

/-- A record is read from the members that set its fields, in any layout and with blanks behind. -/
theorem decode_object {ms : List (String × Bytes)} (h : Sets r.fields [] r.blank ms a) (l : Layout)
    {tail : Bytes} (htail : ∀ c ∈ tail, isBlank c = true) :
    Reader.decode r.read (l.object ms ++ tail) = .ok a := by
  have hblank : skipBlank tail = [] := List.dropWhile_eq_nil_iff.mpr htail
  rw [Reader.decode, read_object tail h, ok_bind]
  simp only [hblank]
  rfl

theorem decode_compact {ms : List (String × Bytes)} (h : Sets r.fields [] r.blank ms a) :
    Reader.decode r.read (Printer.object ms) = .ok a := by
  have hread := decode_object h .compact (List.forall_mem_nil _)
  rwa [List.append_nil, ← Layout.object_compact] at hread

/-! ### What reading keeps -/

section Keeps

variable {P : α → Prop} {bs rest : Bytes}

theorem membersGo_keeps (hfields : ∀ f ∈ fields, f.Keeps P) (ha : P a)
    (h : membersGo fields fuel seen a bs = .ok (b, rest)) : P b := by
  induction fuel generalizing seen a bs with
  | zero => cases h
  | succ fuel ih =>
    have hnext {seen : List Nat} {a : α} {bs : Bytes} (ha : P a)
        (h : (match skipBlank bs with
          | [] => .error .malformed
          | c :: bs =>
            if c = 44 then membersGo fields fuel seen a bs
            else if c = 125 then if complete fields seen then .ok (a, bs) else .error .mismatched
            else .error .malformed) = Except.ok (b, rest)) : P b := by
      split at h
      · cases h
      · split at h
        · exact ih ha h
        · split at h
          · split at h
            · cases h
              exact ha
            · cases h
          · cases h
    rw [membersGo] at h
    obtain ⟨_, -, h⟩ := ok_of_bind h
    obtain ⟨⟨name, _⟩, -, h⟩ := ok_of_bind h
    dsimp only at h
    split at h
    · obtain ⟨_, -, h⟩ := ok_of_bind h
      obtain ⟨_, -, h⟩ := ok_of_bind h
      exact hnext ha h
    · next f i hname =>
      split at h
      · cases h
      · obtain ⟨_, -, h⟩ := ok_of_bind h
        obtain ⟨⟨set, _⟩, hread, h⟩ := ok_of_bind h
        have hmem := List.mem_of_find?_eq_some hname
        exact hnext (hfields f (List.fst_mem_of_mem_zipIdx hmem) _ _ _ hread a ha) h

theorem elementsGo_keeps {first : Bool} (hfields : ∀ f ∈ fields, f.Keeps P) (ha : P a)
    (h : elementsGo fields first a bs = .ok (b, rest)) : P b := by
  induction fields generalizing first a bs with
  | nil =>
    obtain ⟨_, -, h⟩ := ok_of_bind h
    cases h
    exact ha
  | cons f fs ih =>
    obtain ⟨hf, hfs⟩ := List.forall_mem_cons.mp hfields
    have hnext {bs : Bytes}
        (h : (f.read bs >>= fun x => elementsGo fs false (x.1 a) x.2) = .ok (b, rest)) : P b := by
      obtain ⟨⟨set, after⟩, hread, h⟩ := ok_of_bind h
      exact ih hfs (hf _ _ _ hread a ha) h
    rw [elementsGo] at h
    split at h
    · cases h
    · split at h
      · split at h
        · cases h
          exact ha
        · cases h
      · split at h
        · exact hnext h
        · split at h
          · exact hnext h
          · cases h

theorem keeps_of_read (hfields : ∀ f ∈ r.fields, f.Keeps P) (hblank : P r.blank)
    (h : r.read bs = .ok (a, rest)) : P a := by
  unfold read at h
  split at h
  · cases h
  · split at h
    · split at h
      · cases h
      · split at h
        · split at h
          · cases h
            exact hblank
          · cases h
        · exact membersGo_keeps hfields hblank h
    · split at h
      · exact elementsGo_keeps hfields hblank h
      · cases h

/-- What holds of a record before its fields are set, and goes on to hold whatever is read into one
of them, holds of a record that is read. -/
theorem keeps_of_decode (hfields : ∀ f ∈ r.fields, f.Keeps P) (hblank : P r.blank)
    (h : Reader.decode r.read bs = .ok a) : P a := by
  obtain ⟨⟨b, rest⟩, hread, h⟩ := ok_of_bind h
  dsimp only at h
  split at h
  · cases h
    exact keeps_of_read hfields hblank hread
  · cases h

end Keeps

end Record

end Json

/-! ## UTF-8 -/

namespace Bytes

/-- Whether bytes are the UTF-8 form of a text. -/
def IsText (bs : Bytes) : Prop := ∃ s, bs = ofText s

theorem IsText.isSome {bs : Bytes} (h : IsText bs) : (toText? bs).isSome = true := by
  obtain ⟨s, rfl⟩ := h
  rw [toText?_ofText]
  rfl

theorem ofText_append (s t : String) : ofText (s ++ t) = ofText s ++ ofText t := by
  simp [ofText]

theorem ofText_ofList (cs : List Char) :
    ofText (String.ofList cs) = cs.flatMap String.utf8EncodeChar := by
  rw [ofText, String.toByteArray_ofList, List.utf8Encode, List.data_toByteArray]

theorem ofText_eq_flatMap (s : String) : ofText s = s.toList.flatMap String.utf8EncodeChar := by
  rw [← ofText_ofList, String.ofList_toList]

theorem isText_nil : IsText [] := ⟨"", rfl⟩

theorem IsText.append {bs bs' : Bytes} (h : IsText bs) (h' : IsText bs') : IsText (bs ++ bs') := by
  obtain ⟨s, rfl⟩ := h
  obtain ⟨t, rfl⟩ := h'
  exact ⟨s ++ t, (ofText_append s t).symm⟩

theorem isText_flatMap {α : Type} {f : α → Bytes} (h : ∀ a, IsText (f a)) (as : List α) :
    IsText (as.flatMap f) := by
  induction as with
  | nil => exact isText_nil
  | cons a as ih => exact (h a).append ih

theorem isText_encodeChar (c : Char) : IsText (String.utf8EncodeChar c) :=
  ⟨String.ofList [c], by rw [ofText_ofList, List.flatMap_singleton]⟩

/-- A byte of ASCII is a text. -/
theorem isText_byte {b : UInt8} (h : b < 128) : IsText [b] := by
  have ascii : ∀ n : Fin 128, String.utf8EncodeChar (Char.ofNat n.val) = [UInt8.ofNat n.val] := by
    decide
  have hb := ascii ⟨b.toNat, UInt8.lt_iff_toNat_lt.mp h⟩
  rw [UInt8.ofNat_toNat] at hb
  rw [← hb]
  exact isText_encodeChar _

theorem isText_of_ascii {bs : Bytes} (h : ∀ b ∈ bs, b < 128) : IsText bs := by
  induction bs with
  | nil => exact isText_nil
  | cons b bs ih =>
    obtain ⟨hb, hbs⟩ := List.forall_mem_cons.mp h
    exact (isText_byte hb).append (ih hbs)

/-- A character is one byte of ASCII, or none of its bytes is. -/
theorem encodeChar_ascii (c : Char) :
    (∃ b, b < 128 ∧ String.utf8EncodeChar c = [b]) ∨ ∀ b ∈ String.utf8EncodeChar c, 128 ≤ b := by
  have hbyte {n : Nat} (hhi : n < 256) : (UInt8.ofNat n).toNat = n := UInt8.toNat_ofNat_of_lt' hhi
  have hhigh {n : Nat} (hlo : 128 ≤ n) (hhi : n < 256) : (128 : UInt8) ≤ UInt8.ofNat n := by
    rw [UInt8.le_iff_toNat_le, hbyte hhi]
    exact hlo
  rw [String.utf8EncodeChar]
  split
  · next h =>
    refine .inl ⟨_, ?_, rfl⟩
    rw [UInt8.lt_iff_toNat_lt, hbyte (Nat.lt_of_le_of_lt h (by decide))]
    exact Nat.lt_succ_of_le h
  · right
    split
    · simp only [List.forall_mem_cons, List.not_mem_nil, false_implies, implies_true, and_true]
      exact ⟨hhigh (by omega) (by omega), hhigh (by omega) (by omega)⟩
    · split
      · simp only [List.forall_mem_cons, List.not_mem_nil, false_implies, implies_true, and_true]
        exact ⟨hhigh (by omega) (by omega), hhigh (by omega) (by omega),
          hhigh (by omega) (by omega)⟩
      · simp only [List.forall_mem_cons, List.not_mem_nil, false_implies, implies_true, and_true]
        exact ⟨hhigh (by omega) (by omega), hhigh (by omega) (by omega),
          hhigh (by omega) (by omega),
          hhigh (by omega) (by omega)⟩

end Bytes

namespace Json

open Bytes

namespace Text

/-- A byte outside ASCII stands for itself, and the others are written in ASCII. -/
theorem escapeByte_ascii (b : UInt8) :
    (128 ≤ b → escapeByte b = [b]) ∧ (b < 128 → ∀ c ∈ escapeByte b, c < 128) := by
  have all : ∀ n : Fin 256, let b := UInt8.ofNat n.val
      (128 ≤ b → escapeByte b = [b]) ∧ (b < 128 → ∀ c ∈ escapeByte b, c < 128) := by decide +kernel
  have hb := all ⟨b.toNat, b.toNat_lt⟩
  rwa [UInt8.ofNat_toNat] at hb

theorem isText_escape (c : Char) : IsText ((String.utf8EncodeChar c).flatMap escapeByte) := by
  obtain ⟨b, hb, heq⟩ | hhigh := encodeChar_ascii c
  · rw [heq, List.flatMap_singleton]
    exact isText_of_ascii ((escapeByte_ascii b).2 hb)
  · have hsame : (String.utf8EncodeChar c).flatMap escapeByte = String.utf8EncodeChar c := by
      rw [List.flatMap_def, List.map_congr_left fun b hb => (escapeByte_ascii b).1 (hhigh b hb),
        ← List.flatMap_def, List.flatMap_singleton']
    rw [hsame]
    exact isText_encodeChar c

end Text

namespace Printer

theorem isText_text (s : String) : IsText (text s) := by
  have hquote : IsText [quoteByte] := isText_byte (by decide)
  rw [text, Text.write, ofText_eq_flatMap, List.flatMap_assoc]
  exact hquote.append ((isText_flatMap Text.isText_escape _).append hquote)

theorem isText_nat (n : Nat) : IsText (nat n) := by
  refine isText_of_ascii fun b hb => ?_
  obtain ⟨d, hd, rfl⟩ := List.mem_map.mp hb
  have all : ∀ d : Fin 10, UInt8.ofNat (48 + d.val) < 128 := by decide
  exact all ⟨d, Decimal.digits_lt n d hd⟩

theorem isText_bool (b : Bool) : IsText (bool b) := ⟨_, rfl⟩

end Printer

theorem isText_blank {bs : Bytes} (h : ∀ b ∈ bs, isBlank b = true) : IsText bs := by
  refine isText_of_ascii fun b hb => ?_
  have hblank := h b hb
  simp only [isBlank, Bool.or_eq_true, beq_iff_eq] at hblank
  rcases hblank with ((rfl | rfl) | rfl) | rfl <;> decide

namespace Layout

variable {l : Layout}

theorem isText_member {m : String × Bytes} {rest : Bytes} (hm : IsText m.2) (hrest : IsText rest) :
    IsText (l.member m rest) := by
  have hcolon : IsText [58] := isText_byte (by decide)
  refine (isText_blank l.gap_blank).append ((Printer.isText_text m.1).append (hcolon.append ?_))
  exact ((isText_blank l.space_blank).append hm).append hrest

theorem isText_after {ms : List (String × Bytes)} (h : ∀ m ∈ ms, IsText m.2) :
    IsText (l.after ms) := by
  induction ms with
  | nil => exact (isText_blank l.closing_blank).append (isText_byte (by decide))
  | cons m ms ih =>
    obtain ⟨hm, hms⟩ := List.forall_mem_cons.mp h
    exact (isText_byte (b := 44) (by decide)).append (isText_member hm (ih hms))

/-- An object of texts is a text, in any layout. -/
theorem isText_object {ms : List (String × Bytes)} (h : ∀ m ∈ ms, IsText m.2) :
    IsText (l.object ms) := by
  have hopen : IsText [123] := isText_byte (by decide)
  cases ms with
  | nil => exact hopen.append ((isText_blank l.closing_blank).append (isText_byte (by decide)))
  | cons m ms =>
    obtain ⟨hm, hms⟩ := List.forall_mem_cons.mp h
    exact hopen.append (isText_member hm (isText_after hms))

end Layout

end Json

end Cutover
