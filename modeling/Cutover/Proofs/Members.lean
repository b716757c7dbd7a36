import Cutover.Proofs.Trees
import Mathlib.Data.Finset.Insert

/-!
# Records from the members of objects

The members of an object set the fields that they name, each at most once, and members of other
names change nothing. Once it is known what each field makes of a value (`Json.Record.Meaning`),
what is decoded of an object is a fold over its members (`Json.Record.Meaning.decode_object`), in
whatever form the object is written. Main statement: neither the order of the members nor the
members of other names matter (`Json.Record.Meaning.decode_congr`).
-/

namespace Cutover.Json

/-- The bytes are an object with these members, in this order. -/
def IsObject (ms : List (String × Tree)) (bs : Bytes) : Prop :=
  ∃ ps, Written (.element (.object ps)) bs ∧
    List.Forall₂ (fun p m => Text.value? p.1 = some m.1 ∧ p.2 = m.2) ps ms

/-- A field with one name makes of a value what its reader makes of it. -/
theorem Field.reads {α β : Type} {r : Reader β} {name : String} {required : Bool} {set : β → α → α}
    {t : Tree} {b? : Option β} (h : r.Reads t b?) :
    (of name required r set).read.Reads t (b?.map set) :=
  h.map set

namespace Record

variable {α : Type} {r : Record α}

/-- What the fields of a record make of values: what a value does to a record, unless it is refused.
Fields do not interfere with each other. -/
structure Meaning (r : Record α) where
  set? : Nat → Tree → Option (α → α)
  reads : ∀ {f : Field α} {i : Nat}, (f, i) ∈ r.fields.zipIdx → ∀ t, f.read.Reads t (set? i t)
  comm : ∀ {i j : Nat}, i ≠ j → ∀ {t u : Tree} {s s' : α → α}, set? i t = some s →
    set? j u = some s' →
    ∀ a, s (s' a) = s' (s a)

/-- Whether a name is that of a field. -/
def Owns (r : Record α) (name : String) : Bool := (named? r.fields name).isSome

namespace Meaning

variable (M : r.Meaning)

/-- What a member does to a record and to the places of the fields that have been set. -/
def step (s? : Option (Finset Nat × α)) (m : String × Tree) : Option (Finset Nat × α) :=
  s?.bind fun (seen, a) =>
    match named? r.fields m.1 with
    | none => some (seen, a)
    | some (_, i) => if i ∈ seen then none else (M.set? i m.2).map fun set => (insert i seen, set a)

/-- A record, if the fields that are required have been set. -/
def finish (s? : Option (Finset Nat × α)) : Option α :=
  s?.bind fun (seen, a) =>
    if ∀ f ∈ r.fields.zipIdx, f.1.required = true → f.2 ∈ seen then some a else none

/-- What the members of an object make of a record. -/
def assemble (ms : List (String × Tree)) : Option α :=
  finish (r := r) (ms.foldl M.step (some (∅, r.blank)))

/-! ## Order and other names -/

theorem step_of_not_owns {m : String × Tree} (h : r.Owns m.1 = false)
    (s? : Option (Finset Nat × α)) :
    M.step s? m = s? := by
  have hnone : named? r.fields m.1 = none := by simpa [Owns] using h
  cases s? <;> simp [step, hnone]

theorem step_of_named {m : String × Tree} {f : Field α} {i : Nat}
    (h : named? r.fields m.1 = some (f, i)) (seen : Finset Nat) (a : α) :
    M.step (some (seen, a)) m =
      if i ∈ seen then none else (M.set? i m.2).map fun set => (insert i seen, set a) := by
  simp only [step, h, Option.bind_some]

/-- Two members can change places. -/
theorem step_comm (s? : Option (Finset Nat × α)) (m n : String × Tree) :
    M.step (M.step s? m) n = M.step (M.step s? n) m := by
  cases hm : named? r.fields m.1 with
  | none =>
    have hm : r.Owns m.1 = false := by simp [Owns, hm]
    rw [M.step_of_not_owns hm, M.step_of_not_owns hm]
  | some f =>
    cases hn : named? r.fields n.1 with
    | none =>
      have hn : r.Owns n.1 = false := by simp [Owns, hn]
      rw [M.step_of_not_owns hn, M.step_of_not_owns hn]
    | some g =>
      obtain ⟨f, i⟩ := f
      obtain ⟨g, j⟩ := g
      cases s? with
      | none => rfl
      | some s =>
        obtain ⟨seen, a⟩ := s
        have hnone {m : String × Tree} : M.step none m = none := rfl
        rw [M.step_of_named hm, M.step_of_named hn]
        by_cases hij : i = j
        · -- the second of the two finds its field set, whichever it is
          subst hij
          by_cases hi : i ∈ seen
          · simp only [hi, if_true, hnone]
          · cases hset : M.set? i m.2 <;> cases hset' : M.set? i n.2 <;>
              simp [hi, hnone, M.step_of_named hm, M.step_of_named hn]
        · by_cases hi : i ∈ seen <;> by_cases hj : j ∈ seen <;> cases hset : M.set? i m.2 <;>
            cases hset' : M.set? j n.2 <;>
            simp [hi, hj, hij, Ne.symm hij, hnone, M.step_of_named hm, M.step_of_named hn, hset,
              hset']
          exact ⟨Finset.insert_comm j i seen, (M.comm hij hset hset' a).symm⟩

theorem foldl_filter (ms : List (String × Tree)) (s? : Option (Finset Nat × α)) :
    (ms.filter fun m => r.Owns m.1).foldl M.step s? = ms.foldl M.step s? := by
  induction ms generalizing s? with
  | nil => rfl
  | cons m ms ih =>
    cases hm : r.Owns m.1 with
    | true => simp only [List.filter_cons, hm, if_true, List.foldl_cons, ih]
    | false =>
      simp only [List.filter_cons, hm, Bool.false_eq_true, if_false, List.foldl_cons,
        M.step_of_not_owns hm, ih]

/-- Neither the order of members matters, nor what comes under other names. -/
theorem assemble_congr {ms ms' : List (String × Tree)}
    (h : (ms.filter fun m => r.Owns m.1).Perm (ms'.filter fun m => r.Owns m.1)) :
    M.assemble ms = M.assemble ms' := by
  have hfold := h.foldl_eq' (fun m _ n _ s? => M.step_comm s? m n) (some (∅, r.blank))
  rw [M.foldl_filter, M.foldl_filter] at hfold
  rw [assemble, assemble, hfold]

/-- Without a member for it, a field that has to be there is missed. -/
theorem assemble_eq_none {ms : List (String × Tree)} {f : Field α} {i : Nat}
    (hms : ∀ m ∈ ms, r.Owns m.1 = false)
    (hf : (f, i) ∈ r.fields.zipIdx) (hrequired : f.required = true) : M.assemble ms = none := by
  have hnil : M.assemble ms = M.assemble [] := by
    refine M.assemble_congr ?_
    rw [List.filter_eq_nil_iff.mpr fun m hm => by simp [hms m hm]]
    rfl
  have hmissing : ¬ ∀ f ∈ r.fields.zipIdx, f.1.required = true → f.2 ∈ (∅ : Finset Nat) := fun h =>
    Finset.notMem_empty i (h _ hf hrequired)
  rw [hnil, assemble, List.foldl_nil, finish]
  exact if_neg hmissing

/-! ## Reading -/

variable {fuel : Nat} {seen : List Nat} {a : α} {v rest : Bytes}

/-- At the end of an object the record is complete or refused. -/
private theorem toOption_behind (fuel : Nat) (rest : Bytes) :
    (behind r.fields fuel seen a (125 :: rest)).toOption =
      (finish (r := r) (some (seen.toFinset, a))).map (·, rest) := by
  have hcomplete : complete r.fields seen = true ↔
      ∀ f ∈ r.fields.zipIdx, f.1.required = true → f.2 ∈ seen.toFinset := by
    simp only [complete, List.all_eq_true, Bool.or_eq_true, Bool.not_eq_true',
      List.contains_iff_mem, List.mem_toFinset]
    refine forall₂_congr fun f _ => ?_
    cases f.1.required <;> simp
  rw [behind_close (skipBlank_cons rfl _), finish]
  simp only [Option.bind_some, ← hcomplete]
  by_cases h : complete r.fields seen = true
  · simp only [h]
    rfl
  · simp only [h]
    rfl

/-- What is read of a member: its name and a colon, and then its value, for the field of that name
if there is one. -/
private theorem membersGo_element {k : List Text.Piece} {name : String} {t : Tree}
    (hv : Written (.member k t) v) (hk : Text.value? k = some name) (fields : List (Field α))
    (fuel : Nat) (seen : List Nat) (a : α) :
    ∃ u, Written (.element t) u ∧ ∀ rest, membersGo fields (fuel + 1) seen a (v ++ rest) =
      match named? fields name with
      | none => require (skip (u ++ rest)) >>= behind fields fuel seen a
      | some (f, i) =>
        if seen.contains i then .error .mismatched
        else f.read (u ++ rest) >>= fun p => behind fields fuel (i :: seen) (p.1 a) p.2 := by
  cases hv with
  | @member _ _ w n w' u hw hn hw' hu =>
    refine ⟨u, hu, fun rest => ?_⟩
    have hbytes : w ++ 34 :: (n ++ (w' ++ 58 :: u)) ++ rest =
        w ++ 34 :: (n ++ (w' ++ 58 :: (u ++ rest))) := by simp
    have hquote : word [34] (skipBlank (w ++ 34 :: (n ++ (w' ++ 58 :: (u ++ rest))))) =
        some (n ++ (w' ++ 58 :: (u ++ rest))) := hw.take rfl _
    have hread : Text.read (n ++ (w' ++ 58 :: (u ++ rest))) =
        some (name, w' ++ 58 :: (u ++ rest)) := by
      rw [Text.read_spelled hn, hk]
      rfl
    have hcolon : word [58] (skipBlank (w' ++ 58 :: (u ++ rest))) = some (u ++ rest) :=
      hw'.take rfl _
    rw [hbytes, membersGo]
    simp only [hquote, require, ok_bind, hread]
    cases hname : named? fields name with
    | none =>
      simp only [hcolon, ok_bind]
      cases skip (u ++ rest) <;> rfl
    | some f =>
      obtain ⟨f, i⟩ := f
      cases hseen : seen.contains i with
      | true => simp only [hseen, if_true]; rfl
      | false =>
        simp only [hseen, hcolon, ok_bind, Bool.false_eq_true, if_false]
        cases f.read (u ++ rest) <;> rfl

variable (fuel seen a) in
/-- A member takes its step, or is refused. -/
private theorem membersGo_step {k : List Text.Piece} {name : String} {t : Tree}
    (hv : Written (.member k t) v) (hk : Text.value? k = some name) (hrest : Numeral.Stops rest) :
    (M.step (some (seen.toFinset, a)) (name, t) = none ∧
      (membersGo r.fields (fuel + 1) seen a (v ++ rest)).toOption = none) ∨
    ∃ seen' a', M.step (some (seen.toFinset, a)) (name, t) = some (seen'.toFinset, a') ∧
      membersGo r.fields (fuel + 1) seen a (v ++ rest) = behind r.fields fuel seen' a' rest := by
  obtain ⟨u, hu, hread⟩ := membersGo_element hv hk r.fields fuel seen a
  rw [hread rest]
  cases hname : named? r.fields name with
  | none =>
    obtain ⟨w, hw, hskip⟩ := skip_element hu
    refine .inr ⟨seen, a, M.step_of_not_owns (by simp [Owns, hname]) _, ?_⟩
    have hblank : skipBlank (w ++ rest) = skipBlank rest := hw.skip rest
    simp only [hskip rest hrest, require, ok_bind, behind, hblank]
  | some f =>
    obtain ⟨f, i⟩ := f
    rw [M.step_of_named (m := (name, t)) hname]
    by_cases hseen : i ∈ seen
    · refine .inl ⟨if_pos (List.mem_toFinset.mpr hseen), ?_⟩
      simp only [List.contains_iff_mem.mpr hseen, if_true]
      rfl
    · have hcontains : seen.contains i = false := by simpa using hseen
      obtain ⟨w, hw, hfield⟩ := (M.reads (List.mem_of_find?_eq_some hname) t).element hu
      have hfield := hfield rest hrest
      simp only [hcontains, Bool.false_eq_true, if_false]
      rw [if_neg (mt List.mem_toFinset.mp hseen)]
      cases hset : M.set? i t with
      | none =>
        rw [hset] at hfield
        refine .inl ⟨rfl, ?_⟩
        rw [toOption_bind, hfield]
        rfl
      | some set =>
        rw [hset] at hfield
        refine .inr ⟨i :: seen, set a, by simp, ?_⟩
        have hblank : skipBlank (w ++ rest) = skipBlank rest := hw.skip rest
        cases hf : f.read (u ++ rest) with
        | error => rw [hf] at hfield; cases hfield
        | ok x =>
          rw [hf] at hfield
          cases hfield
          simp only [ok_bind, behind, hblank]

theorem foldl_step_none (ms : List (String × Tree)) : ms.foldl M.step none = none := by
  induction ms with
  | nil => rfl
  | cons m ms ih => exact ih

/-- Written members are read one by one, whatever follows the object. -/
private theorem membersGo_written {ps : List (List Text.Piece × Tree)} {ms : List (String × Tree)}
    (hv : Written (.members ps) v)
    (hps : List.Forall₂ (fun p m => Text.value? p.1 = some m.1 ∧ p.2 = m.2) ps ms)
    (hfuel : ps.length ≤ fuel) :
    (membersGo r.fields fuel seen a (v ++ 125 :: rest)).toOption =
      (finish (r := r) (ms.foldl M.step (some (seen.toFinset, a)))).map (·, rest) := by
  induction hps generalizing fuel seen a v with
  | nil => cases hv
  | @cons p m ps ms hp hps ih =>
    obtain ⟨fuel, rfl⟩ := Nat.exists_eq_succ_of_ne_zero (Nat.ne_of_gt (Nat.zero_lt_of_lt hfuel))
    obtain ⟨k, t⟩ := p
    obtain ⟨name, t⟩ := m
    obtain ⟨hk, rfl⟩ := hp
    rw [List.foldl_cons]
    cases hv with
    | lastMember hv =>
      obtain ⟨hstep, hnone⟩ | ⟨seen', a', hstep, hmember⟩ :=
        M.membersGo_step fuel seen a hv hk (IsEnd.stops (.inr (.inl rfl)) rest)
      · rw [hstep, foldl_step_none]
        exact hnone
      · cases hps
        rw [hstep, hmember]
        exact toOption_behind fuel rest
    | @nextMember _ _ _ v u hv hu =>
      obtain ⟨hstep, hnone⟩ | ⟨seen', a', hstep, hmember⟩ :=
        M.membersGo_step fuel seen a hv hk (IsEnd.stops (.inl rfl) (u ++ 125 :: rest))
      · rw [hstep, foldl_step_none, List.append_assoc]
        exact hnone
      · rw [hstep, List.append_assoc, List.cons_append, hmember,
          behind_comma (skipBlank_cons rfl _)]
        exact ih hu (Nat.le_of_succ_le_succ hfuel)

theorem read_object (rest : Bytes) {ps : List (List Text.Piece × Tree)} {ms : List (String × Tree)}
    (hv : Written (.value (.object ps)) v)
    (hps : List.Forall₂ (fun p m => Text.value? p.1 = some m.1 ∧ p.2 = m.2) ps ms) {w : Bytes}
    (hw : AllBlank w) :
    (r.read (w ++ (v ++ rest))).toOption = (M.assemble ms).map (·, rest) := by
  cases hv with
  | @noMembers u hu =>
    cases hps
    have hopen : skipBlank (w ++ (123 :: (u ++ [125]) ++ rest)) = 123 :: (u ++ 125 :: rest) := by
      rw [hw.skip, List.cons_append, skipBlank_cons rfl, List.append_assoc, List.singleton_append]
    have hclose : skipBlank (u ++ 125 :: rest) = 125 :: rest :=
      (hu.skip _).trans (skipBlank_cons rfl _)
    rw [assemble, List.foldl_nil, ← List.toFinset_nil, ← toOption_behind 0 rest, behind]
    simp only [read, hopen, hclose]
    rfl
  | @object _ u hu =>
    obtain ⟨bs, hbegins⟩ := hu.members_begins (125 :: rest)
    have hopen : skipBlank (w ++ (123 :: (u ++ [125]) ++ rest)) = 123 :: (u ++ 125 :: rest) := by
      rw [hw.skip, List.cons_append, skipBlank_cons rfl, List.append_assoc, List.singleton_append]
    have hquote : skipBlank (34 :: bs) = skipBlank (u ++ 125 :: rest) := by
      rw [hbegins]
      exact skipBlank_cons rfl _
    have hfuel : ps.length ≤ (u ++ 125 :: rest).length + 1 := by
      have := hu.length_le
      simp only [List.length_append]
      omega
    rw [assemble, ← List.toFinset_nil, ← M.membersGo_written hu hps hfuel, ← membersGo_congr hquote]
    simp only [read, hopen, hbegins]
    rfl

/-- What is decoded of an object is what its members make of a record. -/
theorem decode_object {ms : List (String × Tree)} {bs : Bytes} (h : IsObject ms bs) :
    (Reader.decode r.read bs).toOption = M.assemble ms := by
  obtain ⟨ps, hv, hps⟩ := h
  cases hv with
  | @element _ w v w' hw hv hw' =>
    have hblank : (skipBlank w').isEmpty = true := by
      have := hw'.skip []
      rw [List.append_nil] at this
      rw [this]
      rfl
    have hread := M.read_object w' hv hps hw
    rw [Reader.decode, toOption_bind, hread]
    cases M.assemble ms with
    | none => rfl
    | some a => simp only [Option.map_some, Option.bind_some, hblank, if_true]; rfl

include M in
/-- Neither the order of the members of an object matters, nor its form, nor what comes under other
names. -/
theorem decode_congr {ms ms' : List (String × Tree)} {bs bs' : Bytes} (h : IsObject ms bs)
    (h' : IsObject ms' bs')
    (hperm : (ms.filter fun m => r.Owns m.1).Perm (ms'.filter fun m => r.Owns m.1)) :
    (Reader.decode r.read bs).toOption = (Reader.decode r.read bs').toOption := by
  rw [M.decode_object h, M.decode_object h', M.assemble_congr hperm]

end Meaning

end Record

/-! ## Printed objects -/

/-- An element without blanks. -/
theorem Written.plain {t : Tree} {v : Bytes} (h : Written (.value t) v) :
    Written (.element t) v := by
  simpa using Written.element allBlank_nil h allBlank_nil

/-- A text as it is printed. -/
def Tree.ofText (s : String) : Tree := .text ((Bytes.ofText s).map Text.pieceOf)

theorem written_text (s : String) : Written (.value (.ofText s)) (Printer.text s) :=
  .text (Text.spelled_write _)

/-- An integer as it is printed. -/
def Tree.ofInt (n : Int) : Tree := .number ⟨decide (n < 0), Decimal.digits n.natAbs, none, none⟩

theorem written_int (n : Int) : Written (.value (.ofInt n)) (Printer.int n) :=
  .number (Numeral.spelled_int n)

namespace Layout

variable {l : Layout}

/-- Members as they are laid out. -/
theorem written_members {m : String × Tree} {ms : List (String × Tree)} {b : String × Bytes}
    {bs : List (String × Bytes)} (h : m.1 = b.1 ∧ Written (.value m.2) b.2)
    (hms : List.Forall₂ (fun m b => m.1 = b.1 ∧ Written (.value m.2) b.2) ms bs) :
    ∃ v, l.member b (l.after bs) = v ++ [125] ∧
      Written (.members ((m :: ms).map fun m => ((Bytes.ofText m.1).map Text.pieceOf, m.2))) v := by
  -- a member, with the blanks that come before the closing brace if it is the last one
  have hmember {m : String × Tree} {b : String × Bytes} (h : m.1 = b.1 ∧ Written (.value m.2) b.2)
      {w : Bytes} (hw : AllBlank w) : ∃ v, (∀ rest, l.member b (w ++ rest) = v ++ rest) ∧
        Written (.member ((Bytes.ofText m.1).map Text.pieceOf) m.2) v := by
    refine ⟨_, fun rest => ?_, .member l.gap_blank (Text.spelled_write _) allBlank_nil
      (.element l.space_blank h.2 hw)⟩
    rw [member, Printer.text, Text.write, ← h.1]
    simp
  induction hms generalizing m b with
  | nil =>
    obtain ⟨v, hv, hwritten⟩ := hmember h l.closing_blank
    exact ⟨v, hv [125], .lastMember hwritten⟩
  | @cons n b' ms bs hn _ ih =>
    obtain ⟨v, hv, hwritten⟩ := hmember h allBlank_nil
    obtain ⟨u, hu, hrest⟩ := ih hn
    refine ⟨v ++ 44 :: u, ?_, .nextMember hwritten hrest⟩
    have hcons := hv (l.after (b' :: bs))
    rw [List.nil_append] at hcons
    rw [hcons, after, hu]
    simp

/-- An object that is laid out is an object. -/
theorem isObject {ms : List (String × Tree)} {bs : List (String × Bytes)}
    (hms : List.Forall₂ (fun m b => m.1 = b.1 ∧ Written (.value m.2) b.2) ms bs) :
    IsObject ms (l.object bs) := by
  refine ⟨ms.map fun m => ((Bytes.ofText m.1).map Text.pieceOf, m.2), ?_, ?_⟩
  · have hvalue : Written (.value
        (.object (ms.map fun m => ((Bytes.ofText m.1).map Text.pieceOf, m.2))))
        (l.object bs) := by
      cases hms with
      | nil => exact .noMembers l.closing_blank
      | cons h hms =>
        obtain ⟨v, hv, hwritten⟩ := l.written_members h hms
        rw [object, hv]
        exact .object hwritten
    exact hvalue.plain
  · rw [List.forall₂_map_left_iff]
    exact List.forall₂_same.mpr fun m _ => ⟨Text.value?_pieceOf m.1, rfl⟩

end Layout

/-- A printed object is an object. -/
theorem isObject_print {ms : List (String × Tree)} {bs : List (String × Bytes)}
    (hms : List.Forall₂ (fun m b => m.1 = b.1 ∧ Written (.value m.2) b.2) ms bs) :
    IsObject ms (Printer.object bs) := by
  rw [Layout.object_compact]
  exact Layout.isObject hms

end Cutover.Json
