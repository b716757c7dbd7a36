import Cutover.Proofs.Calls
import Cutover.Proofs.Rows
import Mathlib.Logic.Function.Basic

/-!
# Stores as tables of rows under their ids

What a store with a table holds is told by what has been done to it: each row that is put in is held
under its id, until another one is put in or the id is taken out, and a call that fails changes
nothing (`Store.held`). No row is ever held under another key than its id, so the reads that go by
the keys and those that go by the ids of the rows agree: pages that are put together, counts,
lookups by ids and by one id. Main statement: `Store.reads_held`.
-/

namespace Cutover

variable {ρ : Type} [Entity ρ]

/-! ## Listings -/

/-- The rows are those that are held and pass a test, in the order of their ids. -/
structure Lists (held : Int → Option ρ) (keep : ρ → Bool) (rows : List ρ) : Prop where
  ascending : rows.Pairwise fun a b => Entity.id a < Entity.id b
  mem_iff : ∀ r, r ∈ rows ↔ held (Entity.id r) = some r ∧ keep r = true

theorem Table.lists (t : Table ρ) (keep : ρ → Bool) : Lists t.get? keep (t.rows.filter keep) where
  ascending := t.ascending.filter _
  mem_iff r := by simp [get?_eq_some_iff]

/-- The ids of the rows of a table among some ids are the keys among them. -/
theorem Table.mem_ofIds_iff (t : Table ρ) (ids : List Int) (id : Int) :
    id ∈ (Rows.ofIds ids t.rows).map Entity.id ↔ id ∈ ids ∧ (t.get? id).isSome := by
  have hkeys : t.keys.filter ids.contains = (Rows.ofIds ids t.rows).map Entity.id :=
    Contents.filter_keys (.table t) ids
  rw [← hkeys, List.mem_filter, List.contains_iff_mem, and_comm, keys_eq, get?_eq_first?,
    Rows.first?_isSome_iff]

theorem Table.get?_insertAll (t : Table ρ) (rows : List ρ) :
    (t.insertAll rows).get? =
      rows.foldl (fun held r => Function.update held (Entity.id r) (some r)) t.get? := by
  induction rows generalizing t with
  | nil => rfl
  | cons r rows ih =>
    have hinsert : (t.insert r).get? = Function.update t.get? (Entity.id r) (some r) := by
      funext id
      rw [get?_insert, Function.update_apply]
    rw [List.foldl_cons, ← hinsert]
    exact ih (t.insert r)

namespace Store

/-! ## What is done to a store -/

/-- What can happen to a store. Calls start and end, and several of them may be under way. -/
inductive Event (ρ : Type) where
  /-- Rows are put in without a call. -/
  | seed (rows : List ρ)
  /-- The next calls of an operation, or of any, are going to be refused. -/
  | arm (op : String) (n : Nat)
  /-- Calls are going to take some time. -/
  | slow (latency : Nat)
  | start (c : Call ρ)
  | finish (c : Call ρ)

variable {s s' : Store ρ} {c : Call ρ} {t : Table ρ}

def on (s : Store ρ) : Event ρ → Store ρ
  | .seed rows => s.insertAll rows
  | .arm op n => { s with faults := s.faults.arm op n }
  | .slow latency => { s with faults := { s.faults with latency } }
  | .start c => (s.start c).1
  | .finish c => (s.finish c).2

/-- The store after some events, the first of them first. -/
def after (s : Store ρ) (events : List (Event ρ)) : Store ρ := events.foldl on s

/-- Whether an event is a call that fails. -/
def fails (s : Store ρ) : Event ρ → Bool
  | .finish c => !(s.finish c).1.isOk
  | _ => false

/-- What is held under each id after an event. -/
def Event.effect (held : Int → Option ρ) : Event ρ → Int → Option ρ
  | .seed rows => rows.foldl (fun held r => Function.update held (Entity.id r) (some r)) held
  | .finish (.upsert r) => Function.update held (Entity.id r) (some r)
  | .finish (.delete id) => Function.update held id none
  | _ => held

/-- What is held under each id after some events, of which those that fail have no effect. -/
def held (s : Store ρ) (held₀ : Int → Option ρ) : List (Event ρ) → Int → Option ρ
  | [] => held₀
  | e :: es => (s.on e).held (if s.fails e then held₀ else e.effect held₀) es

/-- A store with a table of what is held under each id, and no refusals but those that are
planned. -/
structure Holds (s : Store ρ) (held : Int → Option ρ) : Prop where
  table : ∃ t, s.contents = .table t ∧ t.get? = held
  plain : s.Plain

theorem holds_empty (name : String) : (ofTable name ([] : List ρ)).Holds fun _ => none :=
  ⟨⟨.empty, rfl, rfl⟩, fun _ => rfl⟩

theorem Holds.finish {held : Int → Option ρ} (h : s.Holds held) (c : Call ρ) :
    (s.finish c).2.Holds (if s.fails (.finish c) then held else (Event.finish c).effect held) := by
  obtain ⟨⟨t, ht, rfl⟩, hplain⟩ := h
  cases hr : s.faults.refusal? c.op with
  | some faults =>
    have hfinish : s.finish c = (.error (FaultPlan.refusal s.name c.op), { s with faults }) := by
      simp only [Store.finish, hr]
    have hfails : s.fails (.finish c) = true := by rw [fails, hfinish]; rfl
    rw [if_pos hfails, hfinish]
    exact ⟨⟨t, ht, rfl⟩, hplain⟩
  | none =>
    have hfinish : s.finish c = ((s.contents.run c).1,
        { s with contents := (s.contents.run c).2 }) := by
      simp only [Store.finish, hr]
    rw [hfinish, ht]
    cases c with
    | upsert r =>
      have hfails : s.fails (.finish (.upsert r)) = false := by rw [fails, hfinish]; rfl
      refine ⟨⟨t.insert r, rfl, ?_⟩, hplain⟩
      rw [hfails]
      exact t.get?_insertAll [r]
    | delete id =>
      have hfails : s.fails (.finish (.delete id)) = false := by rw [fails, hfinish]; rfl
      refine ⟨⟨t.erase id, rfl, ?_⟩, hplain⟩
      rw [hfails]
      funext j
      exact (t.get?_erase id j).trans (Function.update_apply ..).symm
    | first id =>
      refine ⟨⟨t, ?_, by simp [Event.effect]⟩, hplain⟩
      simp only [Contents.run]
      split <;> rfl
    | findPage | findByIds | findIds | count => exact ⟨⟨t, rfl, by simp [Event.effect]⟩, hplain⟩

theorem Holds.on {held : Int → Option ρ} (h : s.Holds held) (e : Event ρ) :
    (s.on e).Holds (if s.fails e then held else e.effect held) := by
  cases e with
  | seed rows =>
    obtain ⟨⟨t, ht, rfl⟩, hplain⟩ := h
    refine ⟨⟨t.insertAll rows, ?_, t.get?_insertAll rows⟩, hplain⟩
    simp only [Store.on, insertAll, ht]
    rfl
  | arm | slow => exact ⟨h.table, h.plain⟩
  | start c =>
    obtain ⟨t, ht, hget⟩ := h.table
    exact ⟨⟨t, (contents_start s c).trans ht, hget⟩, (h.plain.start c).1⟩
  | finish c => exact h.finish c

/-- A store holds what the events have made of it. -/
theorem Holds.after {held : Int → Option ρ} (h : s.Holds held) (events : List (Event ρ)) :
    (s.after events).Holds (s.held held events) := by
  induction events generalizing s held with
  | nil => exact h
  | cons e es ih => exact ih (h.on e)

/-! ## What a store is asked -/

/-- A call from its start to its end, with nothing in between. -/
def call (s : Store ρ) (c : Call ρ) : Except Error c.Answer × Store ρ :=
  match (s.start c).2.refused with
  | some e => (.error e, (s.start c).1)
  | none => (s.start c).1.finish c

/-- How many refusals are planned at most for calls of an operation. -/
def pending (s : Store ρ) (op : String) : Nat :=
  s.faults.armed.getD op 0 + s.faults.armed.getD FaultPlan.anyOperation 0

/-- A refusal uses up one that was planned. -/
theorem pending_refusal {f f' : FaultPlan} {op : String} (h : f.refusal? op = some f') :
    f'.armed.getD op 0 + f'.armed.getD FaultPlan.anyOperation 0 <
      f.armed.getD op 0 + f.armed.getD FaultPlan.anyOperation 0 := by
  have hspend {name : String} (h : f.spend name = some f') :
      f'.armed.getD name 0 < f.armed.getD name 0 ∧ ∀ x, f'.armed.getD x 0 ≤ f.armed.getD x 0 := by
    rw [FaultPlan.spend_eq] at h
    split at h
    · cases h
    · cases h
      refine ⟨by rw [Assoc.getD_put, if_pos rfl]; omega, fun x => ?_⟩
      rw [Assoc.getD_put]
      split
      · next hx =>
        subst hx
        omega
      · exact Nat.le_refl _
  unfold FaultPlan.refusal? at h
  cases hop : f.spend op with
  | some g =>
    rw [hop] at h
    cases h
    obtain ⟨hlt, hle⟩ := hspend hop
    exact Nat.add_lt_add_of_lt_of_le hlt (hle _)
  | none =>
    rw [hop] at h
    obtain ⟨hlt, hle⟩ := hspend h
    exact Nat.add_lt_add_of_le_of_lt (hle _) hlt

/-- A call that is asked for is refused, which uses up a refusal, or answered. -/
theorem Plain.call_cases (h : s.Plain) (c : Call ρ) :
    (∃ e s', s.call c = (.error e, s') ∧ s'.contents = s.contents ∧ s'.Plain ∧
      s'.pending c.op < s.pending c.op) ∨
    ∃ s', s.call c = ((s.contents.run c).1, s') ∧ s'.contents = (s.contents.run c).2 ∧ s'.Plain ∧
      s'.faults.armed = s.faults.armed := by
  obtain ⟨hplain, hrefused⟩ := h.start c
  have hcall : s.call c = (s.start c).1.finish c := by simp only [call, hrefused]
  have harmed : (s.start c).1.faults.armed = s.faults.armed := by
    rw [faults_start h]
    rfl
  rw [hcall, ← contents_start s c]
  generalize (s.start c).1 = s' at hplain harmed
  cases hr : s'.faults.refusal? c.op with
  | some faults =>
    refine .inl ⟨FaultPlan.refusal s'.name c.op,
      { s' with faults }, by simp only [Store.finish, hr], rfl, hplain, ?_⟩
    have hpending := pending_refusal hr
    rwa [harmed] at hpending
  | none =>
    exact .inr ⟨{ s' with contents := (s'.contents.run c).2 }, by simp only [Store.finish, hr], rfl,
      hplain, harmed⟩

/-- Some rows are what is read page after page from an offset on, up to a page that is not full. A
call that is refused is made again. -/
inductive Pages (since : Option Int) (limit : Nat) : Store ρ → Nat → List ρ → Prop where
  | again {s s' : Store ρ} {offset : Nat} {rows : List ρ} {e : Error} :
      s.call (.findPage ⟨offset, limit, since⟩) = (.error e, s') →
        Pages since limit s' offset rows →
      Pages since limit s offset rows
  | short {s s' : Store ρ} {offset : Nat} {page : List ρ} :
      s.call (.findPage ⟨offset, limit, since⟩) = (.ok page, s') → page.length < limit →
      Pages since limit s offset page
  | full {s s' : Store ρ} {offset : Nat} {page rows : List ρ} :
      s.call (.findPage ⟨offset, limit, since⟩) = (.ok page, s') → page.length = limit →
      Pages since limit s' (offset + limit) rows → Pages since limit s offset (page ++ rows)

variable {since : Option Int} {limit offset : Nat} {rows : List ρ}

/-- A call for a page is refused or gives the page. -/
theorem Plain.page_cases (h : s.Plain) (hs : s.contents = .table t) (q : PageQuery) :
    ∃ s', s'.contents = .table t ∧ s'.Plain ∧
      ((∃ e, s.call (.findPage q) = (.error e, s') ∧
        s'.pending "find_page" < s.pending "find_page") ∨
        s.call (.findPage q) = (.ok (Rows.page q t.rows), s') ∧
          s'.pending "find_page" = s.pending "find_page") := by
  obtain ⟨e, s', hcall, hcontents, hplain, hpending⟩ | ⟨s', hcall, hcontents, hplain, harmed⟩ :=
    h.call_cases (.findPage q)
  · exact ⟨s', hcontents.trans hs, hplain, .inl ⟨e, hcall, hpending⟩⟩
  · rw [hs] at hcall hcontents
    refine ⟨s', hcontents, hplain, .inr ⟨hcall, ?_⟩⟩
    rw [pending, harmed]
    rfl

/-- Pages that are read are the rows from the offset on. -/
theorem Pages.eq_drop (h : Pages since limit s offset rows) (hs : s.contents = .table t)
    (hplain : s.Plain) :
    rows = (Rows.view since t.rows).drop offset := by
  induction h with
  | @again s s' offset rows e hcall _ ih =>
    obtain ⟨s'', hs'', hplain'', ⟨e', hcall', -⟩ | ⟨hcall', -⟩⟩ :=
      hplain.page_cases hs ⟨offset, limit, since⟩
    · rw [hcall] at hcall'
      cases hcall'
      exact ih hs'' hplain''
    · rw [hcall] at hcall'
      cases hcall'
  | @short s s' offset page hcall hlength =>
    obtain ⟨s'', hs'', hplain'', ⟨e', hcall', -⟩ | ⟨hcall', -⟩⟩ :=
      hplain.page_cases hs ⟨offset, limit, since⟩
    · rw [hcall] at hcall'
      cases hcall'
    · rw [hcall] at hcall'
      cases hcall'
      have hmin : min limit ((Rows.view since t.rows).drop offset).length < limit := by
        rwa [Rows.page, List.length_take] at hlength
      exact List.take_of_length_le (by dsimp only; omega)
  | @full s s' offset page rows hcall hlength _ ih =>
    obtain ⟨s'', hs'', hplain'', ⟨e', hcall', -⟩ | ⟨hcall', -⟩⟩ :=
      hplain.page_cases hs ⟨offset, limit, since⟩
    · rw [hcall] at hcall'
      cases hcall'
    · rw [hcall] at hcall'
      cases hcall'
      rw [ih hs'' hplain'', Rows.page, ← List.drop_drop]
      exact List.take_append_drop ..

/-- Page after page comes to an end. -/
theorem exists_pages (since : Option Int) (hlimit : 1 ≤ limit) (hs : s.contents = .table t)
    (hplain : s.Plain) (offset : Nat) :
    ∃ rows, Pages since limit s offset rows := by
  -- a refused call uses up a refusal, and a full page is taken off the rows that are left
  generalize hn : (Rows.view since t.rows).length - offset + s.pending "find_page" = n
  induction n using Nat.strongRecOn generalizing s offset with
  | ind n ih =>
    obtain ⟨s', hs', hplain', ⟨e, hcall, hpending⟩ | ⟨hcall, hpending⟩⟩ :=
      hplain.page_cases hs ⟨offset, limit, since⟩
    · obtain ⟨rows, hrows⟩ := ih _ (by omega) hs' hplain' offset rfl
      exact ⟨rows, .again hcall hrows⟩
    · by_cases hshort : (Rows.page ⟨offset, limit, since⟩ t.rows).length < limit
      · exact ⟨_, .short hcall hshort⟩
      · have hlength : (Rows.page ⟨offset, limit, since⟩ t.rows).length =
            min limit ((Rows.view since t.rows).length - offset) := by
          rw [Rows.page, List.length_take, List.length_drop]
        obtain ⟨rows, hrows⟩ := ih _ (by omega) hs' hplain' (offset + limit) rfl
        exact ⟨_, .full hcall (by omega) hrows⟩

/-- A call that is not refused is answered by what is in the store. -/
theorem Plain.call_answer (h : s.Plain) (hr : s.faults.refusal? c.op = none) :
    (s.call c).1 = (s.contents.run c).1 := by
  have hrefused := (h.start c).2
  simp only [call, hrefused]
  exact (finish_permitted h hr).1

/-- After any events, some of which may be calls that fail, a row is held under no key but its own
id. So the reads of a store, of which some go by the keys and some by the ids of the rows, all give
what is held: page after page and the count, the lookups of rows and of ids, and the lookup by one
id. -/
theorem reads_held (name : String) (events : List (Event ρ)) :
    let s := (ofTable name ([] : List ρ)).after events
    let held := (ofTable name ([] : List ρ)).held (fun _ => none) events
    (∃ t, s.contents = .table t ∧ ∀ k r, (k, r) ∈ t.entries ↔ held k = some r) ∧
    (∀ k r, held k = some r → k = Entity.id r) ∧
    (∀ since limit, 1 ≤ limit → ∃ rows, Lists held (Rows.isSince since) rows ∧
      (∀ rows', Pages since limit s 0 rows' ↔ rows' = rows) ∧
      (s.faults.refusal? "count" = none → (s.call (.count since)).1 = .ok rows.length)) ∧
    (∀ ids, ∃ rows, Lists held (fun r => ids.contains (Entity.id r)) rows ∧
      (rows.map Entity.id).Pairwise (· < ·) ∧
      (∀ id, id ∈ rows.map Entity.id ↔ id ∈ ids ∧ (held id).isSome) ∧
      (s.faults.refusal? "find_by_ids" = none → (s.call (.findByIds ids)).1 = .ok rows) ∧
      (s.faults.refusal? "find_ids" = none →
        (s.call (.findIds ids)).1 = .ok (rows.map Entity.id))) ∧
    ∀ id, s.faults.refusal? "first" = none →
      (s.call (.first id)).1 = match held id with
        | some r => .ok r
        | none => .error .notFound := by
  intro s held
  obtain ⟨⟨t, ht, hheld⟩, hplain⟩ := (holds_empty (ρ := ρ) name).after events
  have hheld : t.get? = held := hheld
  rw [← hheld]
  refine ⟨⟨t, ht, t.mem_entries_iff⟩, fun k r => t.id_of_get?, fun since limit hlimit => ?_,
    fun ids => ?_, fun id hr => ?_⟩
  · refine ⟨Rows.view since t.rows, t.lists _, fun rows' => ⟨fun h => ?_, ?_⟩, fun hr => ?_⟩
    · exact h.eq_drop ht hplain
    · rintro rfl
      obtain ⟨rows, hrows⟩ := exists_pages since hlimit ht hplain 0
      rwa [hrows.eq_drop ht hplain] at hrows
    · rw [hplain.call_answer (c := .count since) hr, ht]
      rfl
  · refine ⟨Rows.ofIds ids t.rows, t.lists _, ?_, t.mem_ofIds_iff ids, fun hr => ?_, fun hr => ?_⟩
    · exact List.pairwise_map.mpr (t.lists _).ascending
    · rw [hplain.call_answer (c := .findByIds ids) hr, ht]
      rfl
    · rw [hplain.call_answer (c := .findIds ids) hr, ht, Contents.run_findIds]
      rfl
  · rw [hplain.call_answer (c := .first id) hr, ht]
    change (match t.get? id with
      | some r => (.ok r, .table t)
      | none => (.error .notFound, .table t) : Except Error ρ × Contents ρ).1 = _
    cases t.get? id <;> rfl

/-- Rows are put in, one call is refused, one puts a row in and one takes a row out; the first page
is refused once. -/
theorem reads_held_faulty :
    let events : List (Event Account) :=
      [.seed [⟨5, "e", 0, 50⟩, ⟨1, "a", 0, 10⟩, ⟨3, "c", 0, 30⟩], .arm "upsert" 1,
        .finish (.upsert ⟨9, "i", 0, 90⟩), .start (.upsert ⟨2, "b", 0, 20⟩),
        .finish (.upsert ⟨2, "b", 0, 20⟩), .finish (.delete 3), .arm "find_page" 1]
    let s := (ofTable "src" []).after events
    (∃ rows, Pages (some 20) 1 s 0 rows ∧ (s.call (.count (some 20))).1 = .ok rows.length) ∧
    (s.call (.findIds [9, 5, 2, 5])).1 = .ok [2, 5] ∧ (s.call (.first 2)).1 = .ok ⟨2, "b", 0, 20⟩ ∧
    (s.call (.first 9)).1 = .error .notFound := by
  intro events s
  obtain ⟨-, -, hpages, hids, hfirst⟩ := reads_held "src" events
  obtain ⟨rows, -, hrows, hcount⟩ := hpages (some 20) 1 (Nat.le_refl 1)
  obtain ⟨found, -, -, -, hfound, hfoundIds⟩ := hids [9, 5, 2, 5]
  have hrefused : s.faults.refusal? "find_by_ids" = none ∧ s.faults.refusal? "find_ids" = none := by
    decide
  have hrefused' : s.faults.refusal? "first" = none ∧ s.faults.refusal? "count" = none := by decide
  have heq : found = [⟨2, "b", 0, 20⟩, ⟨5, "e", 0, 50⟩] := (Except.ok.inj (hfound hrefused.1)).symm
  refine ⟨⟨rows, (hrows rows).mpr rfl, hcount hrefused'.2⟩, ?_, hfirst 2 hrefused'.1,
    hfirst 9 hrefused'.1⟩
  subst heq
  exact hfoundIds hrefused.2

end Store

end Cutover
