import Cyng.Store.Pub
import Cyng.Store.Refinement

/-!
# Replicas

A subscriber that connects is sent the rows of the table, and from then on every event. It
can keep a copy of the contents: insertions add a key, modifications set a column and take
the generation they carry, removals drop a key.

The copy is exact after every call, as long as no call breaks it. The calls that do are the
ones that publish a modification before they count the generation up, `modify` and
`compute`, and the ones that hit the row of another key with the same hash and then publish
the key they were given. `Harmless` excludes exactly these.
-/

namespace Cyng

open Theory

/-- Set a column and take the generation that came with it. -/
def Body.receive {n : ℕ} (body : Body n) (attr : Fin n × Obj) (generation : BitVec 64) :
    Body n :=
  ⟨body.data.set attr.1 attr.2, generation⟩

namespace Contents

variable {m : Meta}

/-- What a replica does with an event. -/
def apply (r : Contents m) : Event m.bodySize → Contents m
  | .insert key data generation _ => Function.update r key (some ⟨data, generation⟩)
  | .modify key attr _ generation _ =>
    match r key with
    | none => r
    | some body => Function.update r key (some (body.receive attr generation))
  | .remove key _ _ => Function.update r key none
  | .clear _ => fun _ => none
  | .trx start => if start then fun _ => none else r

/-- A replica takes the events that are sent to its own slot. -/
def absorb (sp : Slot) (r : Contents m) (delivery : Slot × Event m.bodySize) : Contents m :=
  if delivery.1 = sp then r.apply delivery.2 else r

variable {r : Contents m} {event : Event m.bodySize} {key : List Obj}

/-- To hear an event twice is to hear it once. -/
theorem apply_apply : (r.apply event).apply event = r.apply event := by
  cases event with
  | insert | remove => simp [apply]
  | clear => rfl
  | trx start => cases start <;> rfl
  | modify key attr data generation source =>
    cases hkey : r key with
    | none => simp [apply, hkey]
    | some body => simp [apply, hkey, Body.receive]

theorem apply_modify {attr : Fin m.bodySize × Obj} {data : Vector Obj m.bodySize}
    {generation : BitVec 64} {source : Uuid} {body : Body m.bodySize} (h : r key = some body) :
    r.apply (.modify key attr data generation source) =
      Function.update r key (some (body.receive attr generation)) := by
  simp only [apply, h]

end Contents

/-! ### What a call publishes -/

section Calls

variable {hasher : Hasher} {m : Meta} {b : Build} {t : Table hasher m} {key : List Obj}
  {source : Uuid}

theorem published_publish {n : ℕ} (events : List (Event n)) :
    published (events.map Output.publish) = events := by
  induction events with
  | nil => rfl
  | cons event events ih => exact congrArg (event :: ·) ih

@[simp] theorem published_answer {events : List (Event m.bodySize)} {r : Result} :
    published (t.answer events r).2 = events := by
  have happend : published (t.answer events r).2 =
      published (events.map Output.publish) ++ published [.result r] := List.filterMap_append
  rw [happend, published_publish]
  exact List.append_nil _

/-- The loop of `update` publishes each column as it leaves it. -/
theorem replay_updateColumn {r : Contents m} {body body' : Body m.bodySize}
    {attrs : List (Fin m.bodySize × Obj)} {events : List (Event m.bodySize)}
    (hkey : r key = some body)
    (h : Step.run (Table.updateColumn hasher key source) body attrs = .ok (body', events)) :
    events.foldl Contents.apply r = Function.update r key (some body') := by
  induction attrs generalizing r body events with
  | nil =>
    obtain ⟨rfl, rfl⟩ : body = body' ∧ events = [] := by simpa using h
    rw [List.foldl_nil, ← hkey, Function.update_eq_self]
  | cons attr attrs ih =>
    obtain ⟨idx, value⟩ := attr
    obtain ⟨mid, out, out', hstep, hrun, hout⟩ := Step.run_cons_eq_ok_iff.mp h
    simp only at hrun hout
    rw [hout, List.foldl_append]
    -- no event where the value is unchanged, and one `modify` for each that is not
    by_cases hsame : (body.data.get idx).same hasher value
    · rw [Table.updateColumn_of_same key source hsame] at hstep
      obtain ⟨rfl, rfl⟩ : body = mid ∧ [] = out := by simpa using hstep
      exact ih hkey hrun
    · rw [Table.updateColumn_of_not_same key source hsame] at hstep
      obtain ⟨rfl, rfl⟩ := Prod.mk.inj (Except.ok.inj hstep)
      have happly : r.apply (.modify key (idx, value) (body.assign idx value).data
          (body.generation + 1) source) = Function.update r key (some (body.assign idx value)) :=
        Contents.apply_modify hkey
      rw [List.foldl_cons, List.foldl_nil, happly, ih (Function.update_self ..) hrun,
        Function.update_idem]

theorem run_updateColumn_of_same {n : ℕ} {body : Body n} {data : Vector Obj n}
    (same : ∀ idx, (body.data.get idx).same hasher (data.get idx)) (idxs : List (Fin n)) :
    Step.run (Table.updateColumn hasher key source) body
      (idxs.map fun idx => (idx, data.get idx)) = .ok (body, []) := by
  induction idxs with
  | nil => rfl
  | cons idx idxs ih =>
    exact Step.run_cons_ok (Table.updateColumn_of_same key source (same idx)) ih

/-- Where all hashes agree, nothing is published and nothing changes. -/
theorem update_of_same {n : ℕ} {body : Body n} {data : Vector Obj n}
    (same : ∀ idx, (body.data.get idx).same hasher (data.get idx)) :
    Table.update hasher key data source body = .ok (body, []) :=
  run_updateColumn_of_same same _

theorem run_modifyColumn_of_same {body body' : Body m.bodySize}
    {am : List (BitVec 64 × Obj)} {events : List (Event m.bodySize)}
    (same : ∀ attr ∈ am, ∀ h : attr.1.toNat < m.bodySize,
      (body.data.get ⟨attr.1.toNat, h⟩).same hasher attr.2)
    (h : Step.run (Table.modifyColumn hasher b key source) body am = .ok (body', events)) :
    body' = body ∧ events = [] := by
  induction am generalizing events with
  | nil =>
    obtain ⟨rfl, rfl⟩ : body = body' ∧ events = [] := by simpa using h
    exact ⟨rfl, rfl⟩
  | cons attr am ih =>
    obtain ⟨mid, out, out', hstep, hrun, hout⟩ := Step.run_cons_eq_ok_iff.mp h
    simp only at hrun hout
    have hpass : b.enabled Table.indexAssertion = true → attr.1 ≠ Meta.noColumn := by
      obtain ⟨_, hcheck, -⟩ := bind_eq_ok_iff.mp hstep
      exact Build.check_eq_ok_iff.mp hcheck
    have hstay : Table.modifyColumn hasher b key source body attr = .ok (body, []) := by
      by_cases hidx : attr.1.toNat < m.bodySize
      · exact Table.modifyColumn_of_same key source hpass hidx (same attr List.mem_cons_self hidx)
      · exact Table.modifyColumn_of_not_lt key source hpass hidx
    obtain ⟨rfl, rfl⟩ : body = mid ∧ [] = out := by simpa [hstay] using hstep
    obtain ⟨rfl, rfl⟩ := ih (fun a ha => same a (List.mem_cons_of_mem _ ha)) hrun
    exact ⟨rfl, hout⟩

/-- Removing rows one by one removes their keys. -/
theorem foldl_apply_remove {r : Contents m} {rows : List (List Obj × Body m.bodySize)} :
    (rows.map fun row => Event.remove row.1 row.2.data source).foldl Contents.apply r =
      fun k => if k ∈ rows.map Prod.fst then none else r k := by
  induction rows generalizing r with
  | nil => simp
  | cons row rows ih =>
    funext k
    rw [List.map_cons, List.foldl_cons, ih]
    by_cases hmem : k ∈ rows.map Prod.fst
    · simp [hmem]
    · by_cases hk : k = row.1
      · simp [Contents.apply, hk]
      · simp [Contents.apply, hmem, hk]

end Calls

/-! ### Calls a replica survives -/

section Harmless

variable {hasher : Hasher} {m : Meta} (t : Table hasher m)

/-- The value of the column hashes like the new one: nothing will change. -/
def Unchanged (key : List Obj) (idx : BitVec 64) (f : Obj → Obj) : Prop :=
  ∀ row, t.data.find key = some row → ∀ h : idx.toNat < m.bodySize,
    (row.2.data.get ⟨idx.toNat, h⟩).same hasher (f (row.2.data.get ⟨idx.toNat, h⟩))

/-- The same for all columns of an attribute map. -/
def UnchangedAll (key : List Obj) (am : List (BitVec 64 × Obj)) : Prop :=
  ∀ attr ∈ am, Unchanged t key attr.1 fun _ => attr.2

/-- `modify` and `compute` change nothing; `merge` and `erase` do not hit the row of another
key, or have nothing to change there. -/
def Harmless : Call m → Prop
  | .insert .. | .eraseIf .. | .clear _ => True
  | .merge key data .. => m.checkIntegrity key data → ∀ row, t.data.find key = some row →
    row.1 = key ∨ ∀ (idx : Fin m.bodySize) (value : Obj), data[idx]? = some value →
      (row.2.data.get idx).same hasher value
  | .modify key attr _ => Unchanged t key attr.1 fun _ => attr.2
  | .modifyMap key am _ => UnchangedAll t key am
  | .modifyParam key param _ => Unchanged t key (m.bodyIndexByName param.1) fun _ => param.2
  | .modifyParamMap key pm _ => UnchangedAll t key (Contents.attributes (m := m) pm)
  | .compute key idx f _ => Unchanged t key idx f
  | .computeByName key name f _ => Unchanged t key (m.bodyIndexByName name) f
  | .erase key _ => ∀ row, t.data.find key = some row → row.1 = key

end Harmless

section CallSteps

variable {hasher : Hasher} {m : Meta} {b : Build} {t t' : Table hasher m} {key : List Obj}
  {source : Uuid} {outs : List (Output m.bodySize)}

/-- The contents after a call are what a replica makes of its events. -/
def Replayed (t : Table hasher m) (r : Table hasher m × List (Output m.bodySize)) : Prop :=
  (published r.2).foldl Contents.apply t.contents = r.1.contents

/-- A row that is written back as it was leaves the contents as they were. -/
theorem contents_put_self {row : List Obj × Body m.bodySize} (h : t.data.find key = some row) :
    (t.put key row.2).contents = t.contents := by
  rw [contents_put h, ← contents_of_find h, Function.update_eq_self]

theorem insert_replayed {data : List Obj} {generation : BitVec 64} :
    Replayed t (t.insert key data generation source) := by
  by_cases sizes : m.checkIntegrity key data
  · cases hfind : t.data.find key with
    | none =>
      rw [Table.insert_of_find_none sizes hfind, Replayed, published_answer, answer_fst,
        contents_emplace]
      rfl
    | some row =>
      rw [Table.insert_of_find hfind, Replayed, published_answer]
      rfl
  · rw [Table.insert, dif_neg sizes, Replayed, published_answer]
    rfl

theorem merge_replayed {data : List Obj} {generation : BitVec 64}
    {r : Table hasher m × List (Output m.bodySize)}
    (harmless : Harmless t (.merge key data generation source))
    (h : t.merge key data generation source = .ok r) : Replayed t r := by
  by_cases sizes : m.checkIntegrity key data
  · cases hfind : t.data.find key with
    | none =>
      rw [Table.merge_of_find_none sizes hfind] at h
      obtain rfl := Except.ok.inj h
      rw [Replayed, published_answer, answer_fst, contents_emplace]
      rfl
    | some row =>
      rw [Table.merge_of_find sizes hfind] at h
      obtain ⟨⟨body, events⟩, hrun, hret⟩ := bind_eq_ok_iff.mp h
      obtain rfl := Except.ok.inj hret
      rw [Replayed, published_answer, answer_fst]
      -- either the events carry the stored key, or there are none
      rcases harmless sizes row hfind with hkey | hsame
      · rw [contents_put hfind, hkey]
        exact replay_updateColumn (hkey ▸ contents_of_find hfind) hrun
      · rw [update_of_same fun idx =>
          hsame idx _ (Meta.getElem?_eq_get_vector sizes idx)] at hrun
        obtain ⟨rfl, rfl⟩ : row.2 = body ∧ [] = events := by simpa using hrun
        rw [contents_put_self hfind]
        rfl
  · rw [Table.merge, dif_neg sizes] at h
    obtain rfl := Except.ok.inj h
    rw [Replayed, published_answer]
    rfl

theorem change_replayed {idx : BitVec 64} {f : Obj → Obj} (unchanged : Unchanged t key idx f) :
    Replayed t (t.change key idx f source) := by
  unfold Table.change
  split
  next => rw [Replayed, published_answer]; rfl
  next row hfind =>
    split_ifs with hidx
    · rw [if_pos (unchanged row hfind hidx), Replayed, published_answer]
      rfl
    · rw [Replayed, published_answer]
      rfl

theorem modifyMap_replayed {am : List (BitVec 64 × Obj)}
    {r : Table hasher m × List (Output m.bodySize)} (unchanged : UnchangedAll t key am)
    (h : t.modifyMap b key am source = .ok r) : Replayed t r := by
  unfold Table.modifyMap at h
  split at h
  next =>
    obtain rfl := Except.ok.inj h
    rw [Replayed, published_answer]
    rfl
  next row hfind =>
    obtain ⟨⟨body, events⟩, hrun, hret⟩ := bind_eq_ok_iff.mp h
    obtain rfl := Except.ok.inj hret
    obtain ⟨rfl, rfl⟩ := run_modifyColumn_of_same
      (fun attr hattr => unchanged attr hattr row hfind) hrun
    rw [Replayed, published_answer, answer_fst, contents_put_self hfind]
    rfl

theorem erase_replayed (harmless : Harmless t (.erase key source)) :
    Replayed t (t.erase key source) := by
  unfold Table.erase
  split
  next => rw [Replayed, published_answer]; rfl
  next row hfind =>
    rw [Replayed, published_answer, answer_fst, contents_remove hfind, harmless row hfind]
    rfl

theorem eraseIf_replayed {f : Record m → Bool} : Replayed t (t.eraseIf f source) := by
  rw [Table.eraseIf, Replayed, published_answer, answer_fst, foldl_apply_remove, contents_filter]
  funext k
  cases hmap : t.contents k with
  | none => simp
  | some body =>
    have hmem : (k, body) ∈ t.data.rows := KeyedRows.toMap_eq_some_iff.mp hmap
    -- the row of `k` is the only one with this key
    have hselected : k ∈ (t.data.rows.filter fun row => f ⟨row.1, row.2⟩).map Prod.fst ↔
        f ⟨k, body⟩ = true := by
      constructor
      · intro hk
        obtain ⟨⟨k', body'⟩, hrow, rfl⟩ := List.mem_map.mp hk
        obtain ⟨hrow, hf⟩ := List.mem_filter.mp hrow
        have hmap' : t.contents k' = some body' := KeyedRows.toMap_eq_some_iff.mpr hrow
        obtain rfl : body = body' := Option.some.inj (hmap.symm.trans hmap')
        exact hf
      · intro hf
        exact List.mem_map.mpr ⟨(k, body), List.mem_filter.mpr ⟨hmem, hf⟩, rfl⟩
    by_cases hf : f ⟨k, body⟩ = true
    · rw [if_pos (hselected.mpr hf)]
      exact (Option.filter_some_neg (by simp [hf])).symm
    · rw [if_neg fun hk => hf (hselected.mp hk)]
      exact (Option.filter_some_pos (by simp [hf])).symm

/-- One call: a harmless call publishes all it does. -/
theorem call_replayed {c : Call m} (harmless : Harmless t c) (h : t.call b c = .ok (t', outs)) :
    Replayed t (t', outs) := by
  cases c with
  | insert key data generation source =>
    rw [← Except.ok.inj h]
    exact insert_replayed
  | merge key data generation source => exact merge_replayed harmless h
  -- these four are `change` with an index and a function
  | modify key attr source =>
    rw [← Except.ok.inj h]
    exact change_replayed harmless
  | modifyParam key param source =>
    rw [← Except.ok.inj h]
    exact change_replayed harmless
  | compute key idx f source =>
    rw [← Except.ok.inj h]
    exact change_replayed harmless
  | computeByName key name f source =>
    rw [← Except.ok.inj h]
    exact change_replayed harmless
  | modifyMap key am source => exact modifyMap_replayed harmless h
  | modifyParamMap key pm source => exact modifyMap_replayed harmless h
  | erase key source =>
    rw [← Except.ok.inj h]
    exact erase_replayed harmless
  | eraseIf f source =>
    rw [← Except.ok.inj h]
    exact eraseIf_replayed
  | clear source =>
    rw [← Except.ok.inj h]
    rfl

end CallSteps

/-! ### A slot in a world -/

section Worlds

variable {hasher : Hasher} {m : Meta} {b : Build} {sp : Slot} {n : ℕ}

theorem mem_tidy {vec expired : List Slot} (hmem : sp ∈ vec) (h : sp ∉ expired) :
    sp ∈ tidy vec expired := by
  induction expired generalizing vec with
  | nil => exact hmem
  | cons s expired ih =>
    obtain ⟨hne, htail⟩ : sp ≠ s ∧ sp ∉ expired := by simpa using h
    exact ih ((List.mem_erase_of_ne hne).mpr hmem) htail

/-- A slot hears an event as often as it is registered, which is as good as once. -/
theorem foldl_absorb_map {slots : List Slot} {r : Contents m} {event : Event m.bodySize} :
    (slots.map fun s => (s, event)).foldl (Contents.absorb sp) r =
      if sp ∈ slots then r.apply event else r := by
  induction slots generalizing r with
  | nil => rfl
  | cons s slots ih =>
    rw [List.map_cons, List.foldl_cons, ih]
    by_cases hs : s = sp
    · simp [Contents.absorb, hs, Contents.apply_apply]
    · simp [Contents.absorb, hs, Ne.symm hs]

theorem foldl_absorb_of_ne {s : Slot} (hs : s ≠ sp) {r : Contents m}
    {events : List (Event m.bodySize)} :
    (events.map fun event => (s, event)).foldl (Contents.absorb sp) r = r := by
  induction events with
  | nil => rfl
  | cons event events ih => simpa [Contents.absorb, hs] using ih

/-- What is forwarded reaches a living slot of the list, and the slot stays there. -/
theorem foldl_absorb_forward {alive : Slot → Bool} (halive : alive sp = true) {pub pub' : Pub}
    {events : List (Event m.bodySize)} {ds : List (Slot × Event m.bodySize)} {r : Contents m}
    (hmem : sp ∈ pub.slotsInsert)
    (h : Step.run (Pub.forward alive) pub events = .ok (pub', ds)) :
    sp ∈ pub'.slotsInsert ∧
      ds.foldl (Contents.absorb sp) r = events.foldl Contents.apply r := by
  induction events generalizing pub ds r with
  | nil =>
    obtain ⟨rfl, rfl⟩ : pub = pub' ∧ ds = [] := by simpa using h
    exact ⟨hmem, rfl⟩
  | cons event events ih =>
    obtain ⟨mid, out, out', hstep, hrun, hout⟩ := Step.run_cons_eq_ok_iff.mp h
    obtain ⟨rfl, rfl⟩ := Prod.mk.inj (Except.ok.inj hstep)
    simp only at hrun hout
    have hstays : sp ∈ tidy pub.slotsInsert
        (pub.slotsInsert.filter fun s => !alive s).reverse :=
      mem_tidy hmem (by simp [halive])
    obtain ⟨hmem', hfold⟩ := ih (r := r.apply event) hstays hrun
    refine ⟨hmem', ?_⟩
    have hheard : sp ∈ pub.slotsInsert.filter alive := List.mem_filter.mpr ⟨hmem, halive⟩
    rw [hout, List.foldl_append, foldl_absorb_map, if_pos hheard, hfold, List.foldl_cons]

/-- The initial data set is the contents, whatever the replica held before. -/
theorem foldl_absorb_charge {t : Table hasher m} {r : Contents m} :
    (t.charge.map fun event => (sp, event)).foldl (Contents.absorb sp) r = t.contents := by
  have hrows : t.data.rows.foldl (fun (c : Contents m) row =>
      Function.update c row.1 (some row.2)) (fun _ => none) = t.contents :=
    KeyedRows.foldl_update_rows t.data
  rw [List.foldl_map, ← hrows]
  simp only [Table.charge, Contents.absorb, if_true, List.cons_append, List.foldl_cons,
    List.foldl_append, List.foldl_nil, List.foldl_map]
  rfl

/-- The slot is attached, and its replica holds what the table holds. -/
structure Mirrored (sp : Slot) (w : World hasher m) (r : Contents m) : Prop where
  alive : w.alive sp = true
  attached : sp ∈ w.pub.slotsInsert
  exact : r = w.table.contents

/-- Calls are harmless, and the slot is neither disconnected nor does its channel close. -/
def Quiet (sp : Slot) (w : World hasher m) : Action m → Prop
  | .call c => Harmless w.table c
  | .disconnect s => s ≠ sp
  | .expire s => s ≠ sp
  | _ => True

theorem step_mirrored {w w' : World hasher m} {action : Action m} {r : Contents m}
    {ds : List (Slot × Event m.bodySize)} (mirrored : Mirrored sp w r)
    (quiet : Quiet sp w action) (h : w.step b action = .ok (w', ds)) :
    Mirrored sp w' (ds.foldl (Contents.absorb sp) r) := by
  obtain ⟨halive, hmem, rfl⟩ := mirrored
  cases action with
  | call c =>
    obtain ⟨⟨table, outs⟩, hcall, hrest⟩ := bind_eq_ok_iff.mp h
    obtain ⟨⟨pub, deliveries⟩, hforward, hret⟩ := bind_eq_ok_iff.mp hrest
    obtain ⟨rfl, rfl⟩ := Prod.mk.inj (Except.ok.inj hret)
    obtain ⟨hmem', hfold⟩ := foldl_absorb_forward (r := w.table.contents) halive hmem hforward
    exact ⟨halive, hmem', hfold.trans (call_replayed quiet hcall)⟩
  | connect s =>
    obtain ⟨rfl, rfl⟩ := Prod.mk.inj (Except.ok.inj h)
    refine ⟨halive, List.mem_append_left _ hmem, ?_⟩
    -- its own second connect charges the replica with the rows it already holds
    by_cases hs : s = sp
    · subst hs
      rw [if_pos halive, foldl_absorb_charge]
    · split_ifs
      · exact foldl_absorb_of_ne hs
      · rfl
  | disconnect s =>
    obtain ⟨rfl, rfl⟩ := Prod.mk.inj (Except.ok.inj h)
    exact ⟨halive, (List.mem_erase_of_ne (Ne.symm quiet)).mpr hmem, rfl⟩
  | expire s =>
    obtain ⟨rfl, rfl⟩ := Prod.mk.inj (Except.ok.inj h)
    exact ⟨(Function.update_of_ne (Ne.symm quiet) _ _).trans halive, hmem, rfl⟩
  | connectInsert s | connectOnly s =>
    obtain ⟨rfl, rfl⟩ := Prod.mk.inj (Except.ok.inj h)
    exact ⟨halive, List.mem_append_left _ hmem, rfl⟩
  | connectModify s | connectRemove s | connectClear s =>
    obtain ⟨rfl, rfl⟩ := Prod.mk.inj (Except.ok.inj h)
    exact ⟨halive, hmem, rfl⟩

/-- A table with one record, and one slot that lives. -/
def sampleWorld : World .numbers pairMeta where
  table := ((Table.empty : Table .numbers pairMeta).insert [.size 1, .size 2] [.size 7] 1 nilUuid).1
  pub := .empty
  alive sp := sp == 0

/-- After connecting, the record is overwritten and a second one is added. -/
def sampleActions : List (Action pairMeta) :=
  [.call (.merge [.size 1, .size 2] [.size 8] 1 nilUuid),
    .call (.insert [.size 1, .size 3] [.size 9] 1 nilUuid)]

end Worlds

end Cyng
