import Cutover.Value
import Cutover.Proofs.Forms
import Cutover.Proofs.Magnitudes

/-!
# Values keep their kinds

The written form of a value does not say of which kind it is, but a list of values without floats is
read back as it was (`Value.decode_encodeList`). An integer literal is read as an integer if it has
64 bits with sign, and else as a float. There is none for the largest literals: digits are counted
up to 64 bits and then scaled, which rounds more than once and meets an infinity already below the
largest float (`Decimal.bound`). Main statement: `Value.kinds_kept`.
-/

namespace Cutover

namespace Json

/-! ## Arrays -/

theorem Printer.length_le_separated (vs : List Bytes) :
    vs.length ≤ (separated [44] vs).length + 1 := by
  induction vs with
  | nil => exact Nat.zero_le _
  | cons v vs ih =>
    cases vs with
    | nil => exact Nat.succ_le_succ (Nat.zero_le _)
    | cons w rest =>
      rw [separated]
      simp only [List.length_append, List.length_cons, List.length_nil] at ih ⊢
      omega

namespace Reader

variable {α : Type} {r : Reader α} {enc : α → Bytes}

/-- Written values with commas between them are read one by one, up to the end of the array. -/
theorem itemsGo_gives {as : List α} (hgives : ∀ a ∈ as, r.Gives (enc a) a) (hne : as ≠ [])
    {fuel : Nat} (hfuel : as.length ≤ fuel) (tail : Bytes) :
    itemsGo r fuel (Printer.separated [44] (as.map enc) ++ 93 :: tail) = .ok (as, tail) := by
  induction as generalizing fuel with
  | nil => exact absurd rfl hne
  | cons a as ih =>
    obtain ⟨fuel, rfl⟩ := Nat.exists_eq_succ_of_ne_zero (Nat.ne_of_gt (Nat.zero_lt_of_lt hfuel))
    obtain ⟨ha, has⟩ := List.forall_mem_cons.mp hgives
    cases as with
    | nil =>
      have hread := ha [] 93 tail (List.forall_mem_nil _) (.inr (.inr (.inl rfl)))
      have hclose : skipBlank (93 :: tail) = 93 :: tail := skipBlank_cons rfl _
      rw [List.nil_append] at hread
      rw [itemsGo, List.map_singleton, Printer.separated, hread, ok_bind]
      simp only [hclose]
      rfl
    | cons b bs =>
      have hsplit : Printer.separated [44] ((a :: b :: bs).map enc) ++ 93 :: tail =
          enc a ++ 44 :: (Printer.separated [44] ((b :: bs).map enc) ++ 93 :: tail) := by
        simp [Printer.separated]
      have hread := ha [] 44 (Printer.separated [44] ((b :: bs).map enc) ++ 93 :: tail)
          (List.forall_mem_nil _)
        (.inl rfl)
      have hcomma : skipBlank (44 :: (Printer.separated [44] ((b :: bs).map enc) ++ 93 :: tail)) =
          44 :: (Printer.separated [44] ((b :: bs).map enc) ++ 93 :: tail) := skipBlank_cons rfl _
      rw [List.nil_append] at hread
      rw [hsplit, itemsGo, hread, ok_bind]
      simp only [hcomma, if_true, ih has (List.cons_ne_nil _ _) (Nat.le_of_succ_le_succ hfuel),
        ok_bind]
      rfl

/-- A written array is read back, if no value in it begins as the end of the array does. -/
theorem decode_array {as : List α} (hgives : ∀ a ∈ as, r.Gives (enc a) a)
    (hbegins : ∀ a ∈ as, ∃ b bs, enc a = b :: bs ∧ isBlank b = false ∧ b ≠ 93) :
    decode (array r) (Printer.array (as.map enc)) = .ok as := by
  have hopen : skipBlank (Printer.array (as.map enc)) =
      91 :: (Printer.separated [44] (as.map enc) ++ [93]) :=
    skipBlank_cons rfl _
  cases as with
  | nil => rfl
  | cons a as =>
    obtain ⟨b, bs, hcons, hblank, hb⟩ := hbegins a List.mem_cons_self
    obtain ⟨rest, hrest⟩ : ∃ rest,
      Printer.separated [44] ((a :: as).map enc) ++ [93] = b :: rest := by
      cases as with
      | nil => exact ⟨bs ++ [93], by simp [Printer.separated, hcons]⟩
      | cons c cs => exact ⟨_, by simp [Printer.separated, hcons]; rfl⟩
    have hfuel : (a :: as).length ≤ rest.length + 1 := by
      have hlength := congrArg List.length hrest
      have := Printer.length_le_separated ((a :: as).map enc)
      simp only [List.length_append, List.length_cons, List.length_nil, List.length_map]
        at hlength this ⊢
      omega
    have hitems := itemsGo_gives hgives (List.cons_ne_nil _ _) hfuel []
    rw [hrest] at hitems hopen
    have hread : array r (Printer.array ((a :: as).map enc)) = .ok (a :: as, []) := by
      simp only [array, hopen, if_true, skipBlank_cons hblank, if_neg hb, hitems]
    rw [decode, hread, ok_bind]
    rfl

end Reader

end Json

namespace Value

/-! ## Values without floats -/

/-- A value that is not a float. Integers have 64 bits with sign. -/
def IsExact : Value → Prop
  | integer n => IsSmall n
  | float _ => False
  | null | text _ | boolean _ => True

/-- How a value that is not a float begins. -/
theorem encode_cons {v : Value} (h : v.IsExact) :
    ∃ b bs, v.encode = b :: bs ∧ Json.isBlank b = false ∧ b ≠ 93 := by
  cases v with
  | null => exact ⟨110, _, rfl, by decide, by decide⟩
  | text s => exact ⟨34, _, rfl, by decide, by decide⟩
  | boolean b => cases b <;> exact ⟨_, _, rfl, by decide, by decide⟩
  | float f => exact h.elim
  | integer n =>
    obtain ⟨b, bs, hcons, hb⟩ := (Json.Numeral.spelled_int n).cons
    refine ⟨b, bs, hcons, ?_⟩
    rcases hb with rfl | hb
    · decide
    · refine ⟨(Json.Numeral.not_sign_of_isDigit hb).2.2, ?_⟩
      rintro rfl
      cases hb

/-- What is read where a numeral begins. -/
theorem read_numeral {x : Json.Numeral} {v rest : Bytes} (h : x.Spelled v)
    (hrest : Json.Numeral.Stops rest) :
    read (v ++ rest) = (Json.require (x.value?.map (·, rest))).map fun (n, rest) =>
      (ofNumber n, rest) := by
  obtain ⟨hskip, hstarts⟩ := h.starts rest
  have hread := h.read_number hrest
  obtain ⟨b, bs, rfl, hb⟩ := h.cons
  have hplain : b ≠ 34 ∧ b ≠ 110 ∧ b ≠ 116 ∧ b ≠ 102 := by
    refine ⟨?_, ?_, ?_, ?_⟩ <;> rintro rfl <;> rcases hb with hb | hb <;> cases hb
  rw [read, hskip]
  rw [List.cons_append] at hstarts hread ⊢
  simp only [hplain, if_false, Bool.or_self, decide_false, Bool.false_eq_true, hstarts, if_true,
    hread]

theorem ofNumber_int {n : Int} (h : IsSmall n) : ofNumber (.int n) = integer n := if_pos h

/-- A value that is not a float is read back. -/
theorem read_gives {v : Value} (h : v.IsExact) : Json.Reader.Gives read v.encode v := by
  refine .of_skip (fun bs bs' hskip => by simp only [read, hskip]) fun b rest hb => ?_
  cases v with
  | null => rfl
  | boolean c => cases c <;> rfl
  | float f => exact h.elim
  | text s =>
    have htext : Json.Reader.text (34 :: ((Json.Text.write s).tail ++ b :: rest)) =
        .ok (s, b :: rest) :=
      Json.Reader.text_gives s [] b rest (List.forall_mem_nil _) hb
    have hskip : Json.skipBlank ((text s).encode ++ b :: rest) =
        34 :: ((Json.Text.write s).tail ++ b :: rest) :=
      Json.skipBlank_cons rfl _
    simp only [read, hskip, if_true, htext]
    rfl
  | integer n =>
    have hmax : Int64.maxValue.toInt < UInt64.size := by decide
    have hvalue := Json.Numeral.value?_print h.1 (Int.lt_of_le_of_lt h.2 hmax)
    rw [encode, read_numeral (Json.Numeral.spelled_int n) (hb.stops rest), hvalue, Option.map_some,
      ← ofNumber_int h]
    rfl

/-- A list of values without floats is read back. -/
theorem decode_encodeList {vs : List Value} (h : ∀ v ∈ vs, v.IsExact) :
    Json.Reader.decode (Json.Reader.array read) (encodeList vs) = .ok vs :=
  Json.Reader.decode_array (fun v hv => read_gives (h v hv)) fun v hv => encode_cons (h v hv)

/-! ## Integer literals -/

section Literals

open Json.Numeral

variable {negative : Bool} {ds : List Nat}

/-- The number that an integer literal is written for. -/
def signed (negative : Bool) (ds : List Nat) : Int :=
  if negative then -Decimal.ofDigits ds else Decimal.ofDigits ds

/-- Which literals have 64 bits with sign. -/
theorem isSmall_signed_iff : IsSmall (signed negative ds) ↔
    if negative then Decimal.ofDigits ds ≤ UInt64.size / 2
    else Decimal.ofDigits ds < UInt64.size / 2 := by
  have hmin : Int64.minValue.toInt = -9223372036854775808 := rfl
  have hmax : Int64.maxValue.toInt = 9223372036854775807 := rfl
  have hsize : UInt64.size = 18446744073709551616 := rfl
  unfold IsSmall signed
  split <;> omega

/-- A literal that has no 64 bits with sign is large. -/
theorem le_of_not_isSmall (h : ¬ IsSmall (signed negative ds)) :
    UInt64.size / 2 ≤ Decimal.ofDigits ds := by
  rw [isSmall_signed_iff] at h
  split at h <;> omega

theorem not_isSmall_of_bound_le (h : Decimal.bound ≤ Decimal.ofDigits ds) :
    ¬ IsSmall (signed negative ds) := by
  have hbound : UInt64.size / 2 < Decimal.bound := by decide +kernel
  rw [isSmall_signed_iff]
  split <;> omega

/-- A literal with 64 bits and sign stands for its number. -/
theorem value?_small (hzero : negative = true → Decimal.ofDigits ds ≠ 0)
    (h : IsSmall (signed negative ds)) :
    value? ⟨negative, ds, none, none⟩ = some (.int (signed negative ds)) := by
  rw [isSmall_signed_iff] at h
  cases negative with
  | true =>
    have hbounds : 0 < Decimal.ofDigits ds ∧ Decimal.ofDigits ds ≤ UInt64.size / 2 :=
      ⟨Nat.pos_of_ne_zero (hzero rfl), h⟩
    simp [value?, signed, hbounds]
  | false =>
    have hbound : Decimal.ofDigits ds < UInt64.size := Nat.lt_of_lt_of_le h (Nat.div_le_self ..)
    simp [value?, signed, hbound]

/-- A literal stands for a float, if it is neither small nor an unsigned integer of 64 bits. -/
theorem value?_eq_float (h : ¬ IsSmall (signed negative ds))
    (hunsigned : ¬ (negative = false ∧ Decimal.ofDigits ds < UInt64.size)) :
    value? ⟨negative, ds, none, none⟩ = (toFloat? ⟨negative, ds, none, none⟩).map .float := by
  rw [isSmall_signed_iff] at h
  cases negative with
  | true =>
    have hbounds : ¬ Decimal.ofDigits ds ≤ UInt64.size / 2 := h
    simp [value?, hbounds]
  | false =>
    have hbound : ¬ Decimal.ofDigits ds < UInt64.size := fun hlt => hunsigned ⟨rfl, hlt⟩
    simp [value?, hbound]

/-- A literal that is larger stands for a float, or for nothing if it is beyond the bound. -/
theorem value?_large (hds : ∀ d ∈ ds, d < 10) (h : ¬ IsSmall (signed negative ds)) :
    (Decimal.ofDigits ds < Decimal.bound →
      ∃ n f, value? ⟨negative, ds, none, none⟩ = some n ∧ ofNumber n = .float f) ∧
    (Decimal.bound ≤ Decimal.ofDigits ds → value? ⟨negative, ds, none, none⟩ = none) := by
  have hfloat := isSome_toFloat?_iff negative hds (le_of_not_isSmall h)
  -- an unsigned integer of 64 bits is the only large literal that is no float yet
  by_cases hunsigned : negative = false ∧ Decimal.ofDigits ds < UInt64.size
  · obtain ⟨rfl, hlt⟩ := hunsigned
    have hvalue : value? ⟨false, ds, none, none⟩ = some (.int (Decimal.ofDigits ds)) := by
      simp [value?, hlt]
    have hbound : Decimal.ofDigits ds < Decimal.bound := Nat.lt_trans hlt (by decide +kernel)
    exact ⟨fun _ => ⟨_, _, hvalue, if_neg h⟩, fun hle => absurd hbound (Nat.not_lt.mpr hle)⟩
  · rw [value?_eq_float h hunsigned]
    constructor
    · intro hlt
      obtain ⟨f, hf⟩ := Option.isSome_iff_exists.mp (hfloat.mpr hlt)
      exact ⟨.float f, f, by rw [hf]; rfl, rfl⟩
    · intro hle
      have hnone : toFloat? ⟨negative, ds, none, none⟩ = none := by
        rw [← Option.not_isSome_iff_eq_none, hfloat]
        exact Nat.not_lt.mpr hle
      rw [hnone]
      rfl

/-- What a literal is read as, on its own. -/
theorem decode_literal (negative : Bool) (hwhole : isWhole ds = true) (hds : ∀ d ∈ ds, d < 10) :
    Json.Reader.decode read (sign negative ++ spell ds) =
      (Json.require (value? ⟨negative, ds, none, none⟩)).map ofNumber := by
  have hspelled : Spelled ⟨negative, ds, none, none⟩ (sign negative ++ (spell ds ++ ([] ++ []))) :=
    .mk negative hwhole hds .absent .absent
  have hstops : Stops [] := fun b hb => nomatch hb
  have hread := read_numeral hspelled hstops
  simp only [List.append_nil] at hread
  rw [Json.Reader.decode, hread]
  cases value? ⟨negative, ds, none, none⟩ <;> rfl

/-- A literal beyond the bound is refused. -/
theorem decode_beyond (negative : Bool) (hwhole : isWhole ds = true) (hds : ∀ d ∈ ds, d < 10)
    (hle : Decimal.bound ≤ Decimal.ofDigits ds) :
    Json.Reader.decode read (sign negative ++ spell ds) = .error .malformed := by
  rw [decode_literal negative hwhole hds, (value?_large hds (not_isSmall_of_bound_le hle)).2 hle]
  rfl

end Literals

/-- A list of values without floats is read back as it was. An integer literal other than minus zero
is read as an integer if it has 64 bits with sign, as a float if not, and not at all from the bound
on. -/
theorem kinds_kept :
    (∀ vs : List Value, (∀ v ∈ vs, v.IsExact) →
      Json.Reader.decode (Json.Reader.array read) (encodeList vs) = .ok vs) ∧
    ∀ negative ds, Json.Numeral.isWhole ds = true → (∀ d ∈ ds, d < 10) →
      (negative = true → Decimal.ofDigits ds ≠ 0) →
      let literal := Json.Numeral.sign negative ++ Json.Numeral.spell ds
      (IsSmall (signed negative ds) →
        Json.Reader.decode read literal = .ok (.integer (signed negative ds))) ∧
      (¬ IsSmall (signed negative ds) → Decimal.ofDigits ds < Decimal.bound →
        ∃ f, Json.Reader.decode read literal = .ok (.float f)) ∧
      (Decimal.bound ≤ Decimal.ofDigits ds →
        Json.Reader.decode read literal = .error .malformed) := by
  refine ⟨fun vs => decode_encodeList,
    fun negative ds hwhole hds hzero => ⟨fun h => ?_, fun h hlt => ?_, fun hle => ?_⟩⟩
  · rw [decode_literal negative hwhole hds, value?_small hzero h, ← ofNumber_int h]
    rfl
  · obtain ⟨n, f, hvalue, hfloat⟩ := (value?_large hds h).1 hlt
    rw [decode_literal negative hwhole hds, hvalue]
    exact ⟨f, congrArg Except.ok hfloat⟩
  · exact decode_beyond negative hwhole hds hle

/-- A list of all kinds but floats, the integers at the ends of 64 bits and those beyond them, and a
literal that is too large. -/
theorem kinds_kept_edges :
    Json.Reader.decode (Json.Reader.array read)
        (encodeList [.null, .integer (-9223372036854775808), .text "\"\\", .boolean true]) =
      .ok [.null, .integer (-9223372036854775808), .text "\"\\", .boolean true] ∧
    Json.Reader.decode read
        (Json.Numeral.sign true ++ Json.Numeral.spell [9, 2, 2, 3, 3, 7, 2, 0, 3, 6, 8, 5, 4, 7, 7,
          5, 8, 0, 8]) =
      .ok (.integer (-9223372036854775808)) ∧
    (∃ f, Json.Reader.decode read
        (Json.Numeral.sign false ++ Json.Numeral.spell [9, 2, 2, 3, 3, 7, 2, 0, 3, 6, 8, 5, 4, 7, 7,
          5, 8, 0, 8]) =
      .ok (.float f)) ∧
    Json.Reader.decode read (Json.Numeral.sign true ++
      Json.Numeral.spell (1 :: List.replicate 309 0)) =
      .error .malformed := by
  have hexact : ∀ v ∈ [Value.null, .integer (-9223372036854775808), .text "\"\\", .boolean true],
      v.IsExact := by
    simp only [List.forall_mem_cons, List.not_mem_nil, false_implies, implies_true, and_true]
    exact ⟨trivial, (by decide : IsSmall _), trivial, trivial⟩
  have hdigits : ∀ d ∈ 1 :: List.replicate 309 0, d < 10 := fun d hd => by
    rcases List.mem_cons.mp hd with rfl | hd
    · decide
    · rw [List.eq_of_mem_replicate hd]
      decide
  have hbound : Decimal.bound ≤ Decimal.ofDigits (1 :: List.replicate 309 0) := by decide +kernel
  exact ⟨kinds_kept.1 _ hexact, (kinds_kept.2 true _ rfl (by decide) (by decide)).1 (by decide),
    (kinds_kept.2 false _ rfl (by decide) (by decide)).2.1 (by decide) (by decide +kernel),
    (kinds_kept.2 true _ rfl hdigits (fun _ => by decide +kernel)).2.2 hbound⟩

/-- A number beyond the bound is not read as a float. -/
theorem not_read {n : Nat} (h : Decimal.bound ≤ n) :
    ¬ ∃ f, Json.Reader.decode read (Json.Printer.nat n) = .ok (.float f) := by
  have hn : Decimal.bound ≤ Decimal.ofDigits (Decimal.digits n) :=
    (Decimal.ofDigits_digits n).symm ▸ h
  have hdecode := decode_beyond false (Decimal.isWhole_digits n) (Decimal.digits_lt n) hn
  rw [Json.Numeral.spell_digits] at hdecode
  rintro ⟨f, hf⟩
  cases hf.symm.trans hdecode

/-- The largest float is a whole number, and the literal of that number is not read as a float. -/
theorem largest_not_read :
    Decimal.StandsFor (Float.ofBits 0x7FEFFFFFFFFFFFFF) ((2 ^ 53 - 1) * 2 ^ 971) ∧
      ¬ ∃ f, Json.Reader.decode read (Json.Printer.nat ((2 ^ 53 - 1) * 2 ^ 971)) =
      .ok (.float f) := by
  refine ⟨⟨2 ^ 53 - 1, 971, by decide, rfl, by decide, by decide, by decide, by decide, ?_⟩,
    not_read (by decide +kernel)⟩
  rw [Nat.cast_mul, Nat.cast_pow, Nat.cast_ofNat, ← zpow_natCast]
  rfl

end Value

end Cutover
