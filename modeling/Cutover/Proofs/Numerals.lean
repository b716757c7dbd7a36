import Cutover.Json.Printer
import Cutover.Json.Numeral
import Mathlib.Data.List.TakeWhile

/-!
# The grammar of numerals

A numeral is spelled with a minus or without, with whole digits that have no zero in front, and
perhaps with a fraction and an exponent (`Json.Numeral.Spelled`). Main statement: the numeral at the
front of some bytes is read as it is spelled, if what follows it is no part of it
(`Json.Numeral.read_spelled`).
-/

namespace Cutover

/-! ## Digits -/

namespace Decimal

/-- The first digit of a number that is not zero is not zero. -/
theorem digitsGo_head {fuel n : Nat} (h : n < fuel) (hn : n ≠ 0) (acc : List Nat) :
    ∃ d ds, digitsGo fuel n acc = d :: ds ∧ d ≠ 0 := by
  induction fuel generalizing n acc with
  | zero => omega
  | succ fuel ih =>
    unfold digitsGo
    split
    · exact ⟨n, acc, rfl, hn⟩
    · exact ih (by omega) (by omega) _

theorem isWhole_digits (n : Nat) : Json.Numeral.isWhole (digits n) = true := by
  by_cases hn : n = 0
  · subst hn; rfl
  · obtain ⟨d, ds, heq, hd⟩ := digitsGo_head (Nat.lt_succ_self n) hn []
    rw [digits, heq]
    cases ds with
    | nil => rfl
    | cons => simpa [Json.Numeral.isWhole] using hd

end Decimal

namespace Json.Numeral

/-- Digits as they are written. -/
def spell (ds : List Nat) : Bytes := ds.map fun d => UInt8.ofNat (48 + d)

theorem spell_digits (n : Nat) : spell (Decimal.digits n) = Printer.nat n := rfl

private theorem digit_toByte {d : Nat} (h : d < 10) :
    isDigit (UInt8.ofNat (48 + d)) = true ∧ (UInt8.ofNat (48 + d)).toNat - 48 = d := by
  have all : ∀ d : Fin 10, isDigit (UInt8.ofNat (48 + d.val)) = true ∧
      (UInt8.ofNat (48 + d.val)).toNat - 48 = d.val := by decide
  exact all ⟨d, h⟩

/-- A digit is neither a sign nor a blank. -/
theorem not_sign_of_isDigit {b : UInt8} (h : isDigit b = true) :
    b ≠ 43 ∧ b ≠ 45 ∧ isBlank b = false := by
  simp only [isDigit, Bool.and_eq_true, decide_eq_true_eq, UInt8.le_iff_toNat_le] at h
  have hne {c : UInt8} (hc : c.toNat < 48) : b ≠ c := fun heq => by
    have := congrArg UInt8.toNat heq
    have h48 : (48 : UInt8).toNat = 48 := rfl
    omega
  refine ⟨hne (by decide), hne (by decide), ?_⟩
  simp [isBlank, hne (c := 32) (by decide), hne (c := 9) (by decide), hne (c := 10) (by decide),
    hne (c := 13) (by decide)]

theorem isDigit_of_mem_spell {ds : List Nat} (h : ∀ d ∈ ds, d < 10) {c : UInt8}
    (hc : c ∈ spell ds) :
    isDigit c = true := by
  obtain ⟨d, hd, rfl⟩ := List.mem_map.mp hc
  exact (digit_toByte (h d hd)).1

/-- Digits are read up to the first byte that is none. -/
theorem takeDigits_spell {ds : List Nat} (h : ∀ d ∈ ds, d < 10) {rest : Bytes}
    (hrest : ∀ b ∈ rest.head?, isDigit b = false) : takeDigits (spell ds ++ rest) = (ds, rest) := by
  have hall : ∀ c ∈ spell ds, isDigit c = true := fun c hc => isDigit_of_mem_spell h hc
  have hends : rest.takeWhile isDigit = [] ∧ rest.dropWhile isDigit = rest := by
    cases rest with
    | nil => exact ⟨rfl, rfl⟩
    | cons b rest =>
      have hb : ¬ isDigit b = true := by simp [hrest b rfl]
      exact ⟨List.takeWhile_cons_of_neg hb, List.dropWhile_cons_of_neg hb⟩
  unfold takeDigits
  rw [List.takeWhile_append_of_pos hall, List.dropWhile_append_of_pos hall, hends.1, hends.2,
    List.append_nil, spell, List.map_map]
  refine congrArg (·, rest) (Eq.trans (List.map_congr_left fun d hd => ?_) (List.map_id _))
  exact (digit_toByte (h d hd)).2

theorem spell_cons {ds : List Nat} (hds : ds ≠ []) (h : ∀ d ∈ ds, d < 10) :
    ∃ c cs, spell ds = c :: cs ∧ isDigit c = true := by
  cases ds with
  | nil => exact absurd rfl hds
  | cons d ds => exact ⟨_, _, rfl, (digit_toByte (h d List.mem_cons_self)).1⟩

/-! ## The grammar -/

/-- How the fraction of a numeral is written, if it has one. -/
inductive SpelledFraction : Option (List Nat) → Bytes → Prop where
  | absent : SpelledFraction none []
  | present {ds : List Nat} : ds ≠ [] → (∀ d ∈ ds, d < 10) →
      SpelledFraction (some ds) (46 :: spell ds)

/-- How the exponent of a numeral is written, if it has one. -/
inductive SpelledExponent : Option Int → Bytes → Prop where
  | absent : SpelledExponent none []
  | unsigned {mark : UInt8} {ds : List Nat} : mark = 101 ∨ mark = 69 → ds ≠ [] →
      (∀ d ∈ ds, d < 10) →
      SpelledExponent (some (Decimal.ofDigits ds)) (mark :: spell ds)
  | positive {mark : UInt8} {ds : List Nat} : mark = 101 ∨ mark = 69 → ds ≠ [] →
      (∀ d ∈ ds, d < 10) →
      SpelledExponent (some (Decimal.ofDigits ds)) (mark :: 43 :: spell ds)
  | negative {mark : UInt8} {ds : List Nat} : mark = 101 ∨ mark = 69 → ds ≠ [] →
      (∀ d ∈ ds, d < 10) →
      SpelledExponent (some (-Decimal.ofDigits ds)) (mark :: 45 :: spell ds)

/-- What stands in front of the digits. -/
def sign (negative : Bool) : Bytes := if negative then [45] else []

/-- How a numeral is written. -/
inductive Spelled : Numeral → Bytes → Prop where
  | mk (negative : Bool) {whole : List Nat} {fraction : Option (List Nat)} {exponent : Option Int}
      {u v : Bytes} : isWhole whole = true → (∀ d ∈ whole, d < 10) → SpelledFraction fraction u →
      SpelledExponent exponent v →
      Spelled ⟨negative, whole, fraction, exponent⟩ (sign negative ++ (spell whole ++ (u ++ v)))

/-- What may follow a numeral: nothing, or a byte that is no part of one. -/
def Stops (rest : Bytes) : Prop := ∀ b ∈ rest.head?, isDigit b = false ∧ b ≠ 46 ∧ b ≠ 101 ∧ b ≠ 69

variable {x : Numeral} {u v rest : Bytes} {fraction : Option (List Nat)} {exponent : Option Int}

theorem ne_nil_of_isWhole {ds : List Nat} (h : isWhole ds = true) : ds ≠ [] := by
  rintro rfl
  cases h

/-- A numeral begins with a minus or a digit. -/
theorem Spelled.cons (h : Spelled x v) : ∃ b bs, v = b :: bs ∧ (b = 45 ∨ isDigit b = true) := by
  cases h with
  | @mk negative whole fraction exponent u v hwhole hdigits _ _ =>
    cases negative with
    | true => exact ⟨45, _, rfl, .inl rfl⟩
    | false =>
      obtain ⟨c, cs, hcons, hc⟩ := spell_cons (ne_nil_of_isWhole hwhole) hdigits
      exact ⟨c, cs ++ (u ++ v), by simp [sign, hcons], .inr hc⟩

/-! ## Reading -/

/-- What follows the whole digits of a numeral, or its fraction, is no digit. -/
theorem SpelledExponent.no_digit (h : SpelledExponent exponent v) (hrest : Stops rest) :
    ∀ b ∈ (v ++ rest).head?, isDigit b = false := by
  intro b hb
  cases h with
  | absent => exact (hrest b hb).1
  | unsigned hmark | positive hmark | negative hmark =>
    cases Option.mem_some.mp hb
    rcases hmark with rfl | rfl <;> rfl

theorem SpelledFraction.no_digit (h : SpelledFraction fraction u) (he : SpelledExponent exponent v)
    (hrest : Stops rest) : ∀ b ∈ (u ++ (v ++ rest)).head?, isDigit b = false := by
  intro b hb
  cases h with
  | absent => exact he.no_digit hrest b hb
  | present =>
    cases Option.mem_some.mp hb
    rfl

private theorem strip_of_head? {c : UInt8} (h : ∀ b ∈ rest.head?, b ≠ c) : strip c rest = none := by
  cases rest with
  | nil => rfl
  | cons b rest => rw [strip, if_neg (h b rfl)]

private theorem strip_self (c : UInt8) (rest : Bytes) : strip c (c :: rest) = some rest :=
  if_pos rfl

theorem takeFraction_spelled (h : SpelledFraction fraction u)
    (he : SpelledExponent exponent v) (hrest : Stops rest) :
    takeFraction (u ++ (v ++ rest)) = some (fraction, v ++ rest) := by
  cases h with
  | absent =>
    have hpoint : ∀ b ∈ (v ++ rest).head?, b ≠ 46 := by
      intro b hb
      cases he with
      | absent => exact (hrest b hb).2.1
      | unsigned hmark | positive hmark | negative hmark =>
        cases Option.mem_some.mp hb
        rcases hmark with rfl | rfl <;> decide
    rw [List.nil_append, takeFraction, strip_of_head? hpoint]
  | @present ds hne hdigits =>
    rw [takeFraction, List.cons_append, strip_self]
    simp only [takeDigits_spell hdigits (he.no_digit hrest)]

private theorem strip_mark {mark : UInt8} (h : mark = 101 ∨ mark = 69) (bs : Bytes) :
    (strip 101 (mark :: bs) <|> strip 69 (mark :: bs)) = some bs := by
  rcases h with rfl | rfl <;> rfl

/-- The digits of an exponent, after its sign. -/
private theorem takeExponent_digits {ds : List Nat} (hne : ds ≠ []) (hdigits : ∀ d ∈ ds, d < 10)
    (negative : Bool) (hrest : Stops rest) :
    (match takeDigits (spell ds ++ rest) with
      | ([], _) => none
      | (ds, rest) =>
        let e : Int := Decimal.ofDigits ds
        some (some (if negative then -e else e), rest)) =
      some
        (some (if negative then -(Decimal.ofDigits ds : Int) else Decimal.ofDigits ds), rest) := by
  rw [takeDigits_spell hdigits fun b hb => (hrest b hb).1]
  cases ds with
  | nil => exact absurd rfl hne
  | cons => rfl

theorem takeExponent_spelled (h : SpelledExponent exponent v) (hrest : Stops rest) :
    takeExponent (v ++ rest) = some (exponent, rest) := by
  cases h with
  | absent =>
    have h101 : strip 101 rest = none := strip_of_head? fun b hb => (hrest b hb).2.2.1
    have h69 : strip 69 rest = none := strip_of_head? fun b hb => (hrest b hb).2.2.2
    simp only [List.nil_append, takeExponent, h101, h69]
    rfl
  | @unsigned mark ds hmark hne hdigits =>
    obtain ⟨c, cs, hcons, hc⟩ := spell_cons hne hdigits
    obtain ⟨hplus, hminus, -⟩ := not_sign_of_isDigit hc
    have h45 : strip 45 (spell ds ++ rest) = none := by
      rw [hcons, List.cons_append, strip, if_neg hminus]
    have h43 : strip 43 (spell ds ++ rest) = none := by
      rw [hcons, List.cons_append, strip, if_neg hplus]
    rw [takeExponent, List.cons_append, strip_mark hmark]
    simp only [h45, h43, Option.getD_none]
    exact takeExponent_digits hne hdigits false hrest
  | @positive mark ds hmark hne hdigits =>
    rw [takeExponent, List.cons_append, strip_mark hmark]
    exact takeExponent_digits hne hdigits false hrest
  | @negative mark ds hmark hne hdigits =>
    rw [takeExponent, List.cons_append, strip_mark hmark]
    exact takeExponent_digits hne hdigits true hrest

/-- A numeral is read as it is spelled. -/
theorem read_spelled (h : Spelled x v) (hrest : Stops rest) :
    read (v ++ rest) = some (x, rest) := by
  cases h with
  | @mk negative whole fraction exponent u v hwhole hdigits hfraction hexponent =>
    have hread : takeDigits (spell whole ++ (u ++ (v ++ rest))) = (whole, u ++ (v ++ rest)) :=
      takeDigits_spell hdigits (hfraction.no_digit hexponent hrest)
    cases negative with
    | true =>
      have hbytes : sign true ++ (spell whole ++ (u ++ v)) ++ rest =
          45 :: (spell whole ++ (u ++ (v ++ rest))) := by
        simp [sign]
      simp only [hbytes, read, strip_self, hread, hwhole, if_true,
        takeFraction_spelled hfraction hexponent hrest, takeExponent_spelled hexponent hrest,
        Option.bind_eq_bind, Option.bind_some]
      rfl
    | false =>
      have hbytes : sign false ++ (spell whole ++ (u ++ v)) ++ rest =
          spell whole ++ (u ++ (v ++ rest)) := by
        simp [sign]
      have hstrip : strip 45 (spell whole ++ (u ++ (v ++ rest))) = none := by
        obtain ⟨c, cs, hcons, hc⟩ := spell_cons (ne_nil_of_isWhole hwhole) hdigits
        rw [hcons, List.cons_append, strip, if_neg (not_sign_of_isDigit hc).2.1]
      simp only [hbytes, read, hstrip, hread, hwhole, if_true,
        takeFraction_spelled hfraction hexponent hrest, takeExponent_spelled hexponent hrest,
        Option.bind_eq_bind, Option.bind_some]
      rfl

/-- A printed integer is a numeral of its digits. -/
theorem spelled_int (n : Int) :
    Spelled ⟨decide (n < 0), Decimal.digits n.natAbs, none, none⟩ (Printer.int n) := by
  have h := Spelled.mk (decide (n < 0)) (Decimal.isWhole_digits n.natAbs)
      (Decimal.digits_lt n.natAbs)
    .absent .absent
  have hprint : sign (decide (n < 0)) ++ (spell (Decimal.digits n.natAbs) ++ ([] ++ [])) =
      Printer.int n := by
    unfold sign Printer.int
    by_cases hn : n < 0 <;> simp [hn, spell_digits]
  rwa [hprint] at h

end Json.Numeral

end Cutover
