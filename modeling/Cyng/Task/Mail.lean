import Cyng.Task.Exchange

/-!
# Mail over the registry

A channel gets the mail that is posted after its creation exactly once and in order, however the
strands take turns, until it is stopped or the registry is shut down. Its insertion was posted
first, so every handler behind it finds the channel in the table; and what a handler dispatches
goes to the end of the strand of the channel.
-/

namespace Cyng

open Theory

namespace Task

namespace Exchange

variable (b : Build) (names : ℕ → Bytes → ℕ)

/-! ### The channel and the exchange -/

/-- The handlers that can bring mail to a channel: all that wait, or those behind its insertion. -/
inductive Ahead (i : ℕ) (e : Exchange) : List Post → Prop
  | listed (hmem : (i, i) ∈ e.list) : Ahead i e e.posted
  | waiting {before ahead : List Post} (hmem : (i, i) ∉ e.list)
    (hposted : e.posted = before ++ .inl (.insert i) :: ahead)
    (hbefore : .inl (.insert i) ∉ before) : Ahead i e ahead

/-- An open channel, and what is posted that concerns it. -/
structure Served (lone : Bool) (i : ℕ) (name : Bytes) (e : Exchange) (c : Channel)
    (ahead : List Post) : Prop where
  known : Known i name e.registry c
  place : Ahead i e ahead
  stopped : .inl (.stop name) ∉ ahead
  removed : .inl (.remove i) ∉ e.posted
  alone : lone = true → ∀ id, (name, id) ∈ e.members.map identity → id = i
  forwarded : lone = false → ∀ slot msg, .inr (.forward name slot msg) ∉ ahead

/-- The messages that reach a channel in a run, and how they came: what is called and what waits
is what waited and what arrived, and the mail arrives in the order in which it was posted. -/
structure Carried (i : ℕ) (name : Bytes) (c : Channel) (ahead : List Post)
    (events : List ExchangeEvent) (effects : List RegistryEffect) (c' : Channel)
    (ahead' : List Post) (arrived : List (Sender × Wait)) : Prop where
  slots : c'.slots = c.slots
  called : calledBy .message (effectsOn i effects) ++ c'.queued = c.queued ++ valid c.slots arrived
  posted : sentBy .registry arrived ++ ahead'.flatMap (mail names i name) =
    ahead.flatMap (mail names i name) ++ events.flatMap (mailOf names i name)
  direct : sentBy .direct arrived = events.flatMap (directOf i)

section Steps

variable {b names} {lone : Bool} {i : ℕ} {name : Bytes} {e e' : Exchange} {c c' c'' : Channel}
  {r : Registry} {ahead ahead' ahead'' : List Post} {events events' : List ExchangeEvent}
  {effects effects' : List RegistryEffect}

theorem Carried.refl (c : Channel) (ahead : List Post) :
    Carried names i name c ahead [] [] c ahead [] where
  slots := rfl
  called := by simp [effectsOn, calledBy, valid]
  posted := by simp [sentBy]
  direct := rfl

theorem Carried.trans {arrived arrived' : List (Sender × Wait)}
    (h : Carried names i name c ahead events effects c' ahead' arrived)
    (h' : Carried names i name c' ahead' events' effects' c'' ahead'' arrived') :
    Carried names i name c ahead (events ++ events') (effects ++ effects') c'' ahead''
      (arrived ++ arrived') where
  slots := h'.slots.trans h.slots
  called := by
    rw [effectsOn_append, calledBy_append, List.append_assoc, h'.called, ← List.append_assoc,
      h.called, h.slots, valid_append, List.append_assoc]
  posted := by
    rw [sentBy_append, List.append_assoc, h'.posted, ← List.append_assoc, h.posted,
      List.flatMap_append, List.append_assoc]
  direct := by rw [sentBy_append, h.direct, h'.direct, List.flatMap_append]

/-- A call that posts something, and does not touch the channel. -/
theorem Carried.post (event : ExchangeEvent) {new : List Post}
    (hnew : new.flatMap (mail names i name) = mailOf names i name event)
    (hdirect : directOf i event = []) (heffects : effectsOn i effects = []) :
    Carried names i name c ahead [event] effects c (ahead ++ new) [] where
  slots := rfl
  called := by simp [heffects, calledBy, valid]
  posted := by simp [sentBy, List.flatMap_append, hnew]
  direct := by simp [sentBy, hdirect]

/-- Handlers are put behind those that wait. -/
theorem Served.append (h : Served lone i name e c ahead) (new : List Post)
    (hknown : Known i name e'.registry c') (hlist : e'.list = e.list)
    (hposted : e'.posted = e.posted ++ new)
    (hmembers : lone = true → ∀ id, (name, id) ∈ e'.members.map identity → id = i)
    (hstopped : .inl (.stop name) ∉ new) (hremoved : .inl (.remove i) ∉ new)
    (hforwarded : lone = false → ∀ slot msg, .inr (.forward name slot msg) ∉ new) :
    Served lone i name e' c' (ahead ++ new) where
  known := hknown
  place := by
    cases h.place with
    | listed hmem =>
      rw [← hposted]
      exact .listed (hlist ▸ hmem)
    | waiting hmem hwaiting hbefore =>
      refine .waiting (hlist ▸ hmem) ?_ hbefore
      rw [hposted, hwaiting, List.append_assoc, List.cons_append]
  stopped := by
    rw [List.mem_append]
    exact not_or.mpr ⟨h.stopped, hstopped⟩
  removed := by
    rw [hposted, List.mem_append]
    exact not_or.mpr ⟨h.removed, hremoved⟩
  alone := hmembers
  forwarded hlone slot msg := by
    rw [List.mem_append]
    exact not_or.mpr ⟨h.forwarded hlone slot msg, hforwarded hlone slot msg⟩

/-- The strand runs a handler. -/
theorem served_handled (h : Served lone i name e c ahead) {post : Post} {posted : List Post}
    {r' : Registry} (hposted : e.posted = post :: posted)
    (hhandled : Handled names i name e.registry c post r' c')
    (heffects : effectsOn i effects = []) :
    ∃ ahead' arrived, Served lone i name (ofRegistry r' posted) c' ahead' ∧
      Carried names i name c ahead [.registry .run] effects c' ahead' arrived := by
  have hknown : Known i name (ofRegistry r' posted).registry c' :=
    hhandled.known.congr rfl rfl le_rfl rfl
  have hremoved : .inl (.remove i) ∉ posted := fun hmem =>
    h.removed (hposted ▸ List.mem_cons_of_mem _ hmem)
  have halone : lone = true → ∀ id, (name, id) ∈ r'.members.map identity → id = i := by
    rw [hhandled.members]
    exact h.alone
  have hlisted := hhandled.listed
  have hqueued := hhandled.queued
  have hplace := h.place
  generalize hahead : ahead = waits at hplace
  cases hplace with
  | listed hmem =>
    subst hahead
    have hmem' : (i, i) ∈ e.registry.list := hmem
    rw [if_pos hmem'] at hqueued
    have hsub {p : Post} (hnot : p ∉ e.posted) : p ∉ posted := fun hp =>
      hnot (hposted ▸ List.mem_cons_of_mem _ hp)
    refine ⟨posted, (mail names i name post).map (Prod.mk .registry), ⟨hknown,
      .listed (hlisted.mpr (Or.inl hmem)), hsub h.stopped, hremoved, halone,
      fun hlone slot msg => hsub (h.forwarded hlone slot msg)⟩, hhandled.slots, ?_, ?_, ?_⟩
    · simp [heffects, calledBy, hqueued, valid]
    · simp [sentBy, hposted, mailOf]
    · simp [sentBy, directOf]
  | @waiting before _ hmem hwaiting hbefore =>
    subst hahead
    have hmem' : (i, i) ∉ e.registry.list := hmem
    rw [if_neg hmem'] at hqueued
    have hcarried : Carried names i name c ahead [.registry .run] effects c' ahead [] := by
      refine ⟨hhandled.slots, ?_, by simp [sentBy, mailOf], by simp [sentBy, directOf]⟩
      simp [heffects, calledBy, hqueued, valid]
    refine ⟨ahead, [], ⟨hknown, ?_, h.stopped, hremoved, halone, h.forwarded⟩, hcarried⟩
    cases before with
    | nil =>
      -- it is the turn of the insertion
      obtain ⟨rfl, rfl⟩ := List.cons.inj (hposted.symm.trans hwaiting)
      exact .listed (hlisted.mpr (Or.inr rfl))
    | cons first before =>
      obtain ⟨rfl, hrest⟩ := List.cons.inj (hposted.symm.trans hwaiting)
      refine .waiting (fun hnow => ?_) hrest fun hmem => hbefore (List.mem_cons_of_mem _ hmem)
      rcases hlisted.mp hnow with hthere | hinsert
      · exact hmem hthere
      · exact hbefore (hinsert ▸ List.mem_cons_self)

/-- As soon as the channel is in the table, all handlers can bring mail. -/
theorem Served.ahead_eq (h : Served lone i name e c ahead) (hmem : (i, i) ∈ e.list) :
    ahead = e.posted := by
  have hplace := h.place
  generalize hahead : ahead = waits at hplace
  cases hplace with
  | listed _ => exact hahead.symm ▸ rfl
  | waiting hnot _ _ => exact absurd hmem hnot

theorem served_run (h : Served lone i name e c ahead)
    (hrun : run b names e = .ok (e', effects)) :
    ∃ c' ahead' arrived, Served lone i name e' c' ahead' ∧
      Carried names i name c ahead [.registry .run] effects c' ahead' arrived := by
  rw [run] at hrun
  split at hrun
  · obtain ⟨rfl, rfl⟩ := Prod.mk.inj (Except.ok.inj hrun)
    have hcarried : Carried names i name c ahead [.registry .run] [] c (ahead ++ []) [] :=
      .post _ rfl rfl rfl
    exact ⟨c, ahead, [], h, by simpa using hcarried⟩
  · next handler posted hposted =>
    obtain ⟨⟨r', out⟩, hhandler, hok⟩ := bind_eq_ok_iff.mp hrun
    obtain ⟨rfl, rfl⟩ := Prod.mk.inj (Except.ok.inj hok)
    have hknown : Known i name { e.registry with strand := [handler] } c :=
      h.known.congr rfl rfl le_rfl rfl
    obtain ⟨c', hhandled, heffects⟩ := handled_handler names hknown rfl
      (fun heq => h.removed (by rw [hposted, heq]; exact List.mem_cons_self))
      (fun hmem heq => h.stopped (by rw [h.ahead_eq hmem, hposted, heq]; exact List.mem_cons_self))
      hhandler
    obtain ⟨ahead', arrived, hserved, hcarried⟩ := served_handled h hposted
      ⟨hhandled.known, hhandled.slots, hhandled.members, hhandled.listed, hhandled.queued⟩ heffects
    exact ⟨c', ahead', arrived, hserved, hcarried⟩
  · next request posted hposted =>
    obtain ⟨r', hperform, hok⟩ := bind_eq_ok_iff.mp hrun
    obtain ⟨rfl, rfl⟩ := Prod.mk.inj (Except.ok.inj hok)
    have hlone : ∀ tag slot msg, request = .forward tag slot msg → tag = name →
        (i, i) ∈ e.registry.list → ∀ m ∈ e.registry.members, m.name = name → m.id = i := by
      rintro tag slot msg rfl rfl hmem m hm rfl
      cases lone with
      | true => exact h.alone rfl m.id (List.mem_map_of_mem (f := identity) hm)
      | false =>
        refine absurd ?_ (h.forwarded rfl slot msg)
        rw [h.ahead_eq hmem, hposted]
        exact List.mem_cons_self
    obtain ⟨c', hhandled⟩ := handled_request h.known hlone hperform
    have hnone : effectsOn i [] = [] := rfl
    obtain ⟨ahead', arrived, hserved, hcarried⟩ := served_handled h hposted hhandled hnone
    exact ⟨c', ahead', arrived, hserved, hcarried⟩

/-- A call of the registry that leaves the table and the channel alone, and posts at most one
handler. -/
theorem served_call (h : Served lone i name e c ahead) (new : List RegistryHandler)
    {r' : Registry} (hknown : Known i name r' c')
    (hlist : r'.list = e.list) (hstrand : r'.strand = e.registry.strand ++ new)
    (hmembers : lone = true → ∀ id, (name, id) ∈ r'.members.map identity → id = i)
    (hstopped : .stop name ∉ new) (hremoved : .remove i ∉ new) :
    Served lone i name
      (ofRegistry r' (e.posted ++ (r'.strand.drop e.registry.strand.length).map .inl)) c'
      (ahead ++ new.map .inl) := by
  have hdrop : r'.strand.drop e.registry.strand.length = new := by
    rw [hstrand, List.drop_left]
  rw [hdrop]
  exact h.append (new.map .inl) (hknown.congr rfl rfl le_rfl rfl) hlist rfl hmembers
    (by simpa using hstopped) (by simpa using hremoved) (by simp)

/-- Something happens to a channel: to this one, or to another one. -/
theorem carried_channel (names : ℕ → Bytes → ℕ) (ahead : List Post)
    (h : Known i name e.registry c) {id : ℕ} {event : ChannelEvent}
    (hstop : event = .stop → id ≠ i) :
    ∃ c' arrived, Known i name (e.registry.onChannel id event).1 c' ∧
      Carried names i name c ahead [.registry (.channel id event)]
        (e.registry.onChannel id event).2 c' (ahead ++ []) arrived := by
  by_cases hid : id = i
  · subst hid
    have hne : event ≠ .stop := fun heq => hstop heq rfl
    have hconserves := react_conserves h.isOpen h.valid event hne
    refine ⟨(c.react event).1, (directOf id (.registry (.channel id event))).map (Prod.mk .direct),
      known_onChannel h event hne, Channel.slots_react, ?_, ?_, ?_⟩
    · rw [(onChannel_self h.lock event).2, effectsOn_self, hconserves]
      congr 1
      cases event with
      | dispatch slot msg =>
        by_cases hslot : slot < c.slots <;> simp [accepted, valid, directOf, hslot]
      | stop => exact absurd rfl hne
      | _ => simp [accepted, valid, directOf]
    · simp [sentBy, mailOf]
    · simp [sentBy]
  · refine ⟨c, [], known_onChannel_of_ne h hid event, ?_⟩
    apply Carried.post
    · rfl
    · cases event with
      | dispatch slot msg => exact if_neg hid
      | _ => rfl
    · exact (onChannel_of_ne hid event).2

theorem known_create (h : Known i name r c) (channel : Bytes) (slots : ℕ) (stopIdx : Fin slots) :
    Known i name (r.create channel slots stopIdx) c := by
  refine h.congr ?_ rfl (Nat.le_succ _) rfl
  have hfind : r.members.find? (fun m => m.id = i) = some ⟨name, i, c⟩ := h.lock
  rw [Registry.lock, Registry.create, List.find?_append, hfind, h.lock]
  rfl

theorem known_filter (h : Known i name r c) {id : ℕ} (hne : id ≠ i)
    (strand : List RegistryHandler) :
    Known i name { r with members := r.members.filter fun m => m.id ≠ id, strand } c := by
  refine h.congr ?_ rfl le_rfl rfl
  rw [Registry.lock, List.find?_filter, Registry.lock]
  congr 1
  funext m
  by_cases hm : m.id = i
  · simp [hm, hne.symm]
  · simp [hm]

/-- A call of the registry or of the controller, or something that happens to a channel. -/
theorem served_registry (h : Served lone i name e c ahead) {event : RegistryEvent}
    (hrun : event ≠ .run) (hquiet : Undisturbed lone i name (.registry event)) {r' : Registry}
    (hstep : Registry.step b e.registry event = .ok (r', effects)) :
    ∃ c' ahead' arrived, Served lone i name
        (ofRegistry r' (e.posted ++ (r'.strand.drop e.registry.strand.length).map .inl)) c' ahead' ∧
      Carried names i name c ahead [.registry event] effects c' ahead' arrived := by
  -- a call that posts nothing
  have hnothing {r' : Registry} {c' : Channel} (hknown : Known i name r' c')
      (hlist : r'.list = e.list) (hstrand : r'.strand = e.registry.strand)
      (hmembers : r'.members.map identity = e.members.map identity) :
      Served lone i name
        (ofRegistry r' (e.posted ++ (r'.strand.drop e.registry.strand.length).map .inl)) c'
        (ahead ++ []) := by
    refine served_call h [] hknown hlist (by rw [hstrand, List.append_nil]) ?_ (by simp)
      (by simp)
    rw [hmembers]
    exact h.alone
  cases event with
  | run => exact absurd rfl hrun
  | shutdown => exact False.elim hquiet
  | create channel slots stopIdx =>
    obtain ⟨rfl, rfl⟩ := Prod.mk.inj (Except.ok.inj hstep)
    have hup : e.registry.isShutdown = false := h.known.up
    refine ⟨c, _, [], served_call h [.insert (e.registry.lastId + 1)]
      (known_create h.known channel slots stopIdx) rfl (by simp [Registry.create, hup]) ?_ (by simp)
      (by simp), .post _ ?_ rfl rfl⟩
    · intro hlone id hmem
      simp only [Registry.create, List.map_append, List.mem_append, List.map_singleton,
        List.mem_singleton] at hmem
      rcases hmem with hmem | hmem
      · exact h.alone hlone id hmem
      · exact absurd (Prod.mk.inj hmem).1.symm (hquiet hlone)
    · simp [mail, mailOf]
  | channel id event =>
    obtain rfl : _ = r' := congrArg Prod.fst (Except.ok.inj hstep)
    obtain rfl : _ = effects := congrArg Prod.snd (Except.ok.inj hstep)
    have hstop : event = .stop → id ≠ i := by
      rintro rfl
      exact hquiet
    obtain ⟨c', arrived, hknown, hcarried⟩ :=
      carried_channel names ahead h.known hstop
    obtain ⟨members, hmembers, hidentity⟩ := onChannel_eq e.registry id event
    refine ⟨c', _, arrived, hnothing hknown ?_ ?_ ?_, hcarried⟩
    all_goals rw [hmembers]
    · rfl
    · exact hidentity
  | destroy id =>
    have hsame : Carried names i name c ahead [.registry (.destroy id)] [] c (ahead ++ []) [] :=
      .post _ rfl rfl rfl
    rw [Registry.step, Registry.destroy] at hstep
    split at hstep
    · obtain ⟨rfl, rfl⟩ := Prod.mk.inj (Except.ok.inj hstep)
      exact ⟨c, _, [], hnothing h.known rfl rfl rfl, hsame⟩
    · split_ifs at hstep with hheld hdown
      · obtain ⟨rfl, rfl⟩ := Prod.mk.inj (Except.ok.inj hstep)
        exact ⟨c, _, [], hnothing h.known rfl rfl rfl, hsame⟩
      · exact absurd hdown (by simp [h.known.up])
      · obtain ⟨_, -, hok⟩ := bind_eq_ok_iff.mp hstep
        obtain ⟨rfl, rfl⟩ := Prod.mk.inj (Except.ok.inj hok)
        have hne : id ≠ i := hquiet
        refine ⟨c, _, [], served_call h [.remove id] (known_filter h.known hne _) rfl
          rfl ?_ (by simp) (by simpa using hne.symm), .post _ ?_ rfl rfl⟩
        · intro hlone id' hmem
          obtain ⟨m, hm, heq⟩ := List.mem_map.mp hmem
          exact h.alone hlone id' (heq ▸ List.mem_map_of_mem (List.mem_of_mem_filter hm))
        · simp [mail, mailOf]
  | stop channel =>
    obtain ⟨rfl, rfl⟩ := Prod.mk.inj (Except.ok.inj hstep)
    have hne : channel ≠ name := hquiet
    refine ⟨c, _, [], served_call h [.stop channel] (h.known.congr rfl rfl le_rfl rfl) rfl
      rfl h.alone (by simpa using hne.symm) (by simp), .post _ ?_ rfl rfl⟩
    simp [mail, mailOf]
  | dispatch id slot msg =>
    have hup : e.registry.isShutdown = false := h.known.up
    simp only [Registry.step, hup] at hstep
    obtain ⟨rfl, rfl⟩ := Prod.mk.inj (Except.ok.inj hstep)
    refine ⟨c, _, [], served_call h [.dispatch id slot msg]
      (h.known.congr rfl rfl le_rfl hup.symm) rfl rfl h.alone (by simp) (by simp),
      .post _ ?_ rfl rfl⟩
    simp [mailOf]
  | reset =>
    obtain ⟨_, -, hok⟩ := bind_eq_ok_iff.mp hstep
    obtain ⟨rfl, rfl⟩ := Prod.mk.inj (Except.ok.inj hok)
    have hup : e.registry.isShutdown = false := h.known.up
    exact ⟨c, _, [], hnothing (h.known.congr rfl rfl le_rfl hup.symm) rfl rfl rfl,
      .post _ rfl rfl rfl⟩

/-- A call posts to the end of the strand. -/
theorem of_call {event : RegistryEvent} (hrun : event ≠ .run)
    (hstep : step b names e (.registry event) = .ok (e', effects)) :
    (do
      let (r, effects) ← Registry.step b e.registry event
      Except.ok (ofRegistry r
        (e.posted ++ (r.strand.drop e.registry.strand.length).map Sum.inl), effects)) =
      .ok (e', effects) := by
  cases event with
  | run => exact absurd rfl hrun
  | _ => exact hstep

theorem served_step (h : Served lone i name e c ahead) {event : ExchangeEvent}
    (hquiet : Undisturbed lone i name event)
    (hstep : step b names e event = .ok (e', effects)) :
    ∃ c' ahead' arrived, Served lone i name e' c' ahead' ∧
      Carried names i name c ahead [event] effects c' ahead' arrived := by
  cases event with
  | registry event =>
    by_cases hrun : event = .run
    · subst hrun
      exact served_run h hstep
    · obtain ⟨⟨r', out⟩, hregistry, hok⟩ := bind_eq_ok_iff.mp (of_call hrun hstep)
      obtain ⟨rfl, rfl⟩ := Prod.mk.inj (Except.ok.inj hok)
      exact served_registry h hrun hquiet hregistry
  | post request =>
    have hup : e.isShutdown = false := h.known.up
    simp only [step, hup, Bool.false_and] at hstep
    obtain ⟨rfl, rfl⟩ := Prod.mk.inj (Except.ok.inj hstep)
    refine ⟨c, _, [], h.append [.inr request] (h.known.congr rfl rfl le_rfl hup.symm) rfl
      rfl h.alone (by simp) (by simp) ?_, .post _ (by simp [mailOf]) rfl rfl⟩
    intro hlone slot msg hmem
    -- a forward to the name is not posted where others have it, too
    obtain rfl := Sum.inr.inj (List.mem_singleton.mp hmem)
    exact hquiet hlone rfl

theorem served_runs (h : Served lone i name e c ahead)
    (hquiet : ∀ event ∈ events, Undisturbed lone i name event)
    (hrun : Step.run (step b names) e events = .ok (e', effects)) :
    ∃ c' ahead' arrived, Served lone i name e' c' ahead' ∧
      Carried names i name c ahead events effects c' ahead' arrived := by
  induction events generalizing e c ahead effects with
  | nil =>
    obtain ⟨rfl, rfl⟩ : e = e' ∧ effects = [] := by simpa using hrun
    exact ⟨c, ahead, [], h, .refl c ahead⟩
  | cons event events ih =>
    obtain ⟨t, head, tail, hstep, hrest, rfl⟩ := Step.run_cons_eq_ok_iff.mp hrun
    obtain ⟨c', ahead', arrived, hserved, hcarried⟩ :=
      served_step h (hquiet event List.mem_cons_self) hstep
    obtain ⟨c'', ahead'', arrived', hserved', hcarried'⟩ :=
      ih hserved (fun event hmem => hquiet event (List.mem_cons_of_mem _ hmem)) hrest
    exact ⟨c'', ahead'', arrived ++ arrived', hserved', hcarried.trans hcarried'⟩

end Steps

/-! ### Ids are given out once -/

/-- The id that a handler inserts or removes. -/
def handlerId : RegistryHandler → ℕ
  | .insert id | .remove id => id
  | _ => 0

/-- No id was given out that is greater than the counter. -/
structure Bounded (r : Registry) : Prop where
  sorted : OrderedMap.Sorted r.list
  list : ∀ x ∈ r.list, x.1 ≤ r.lastId ∧ x.2 ≤ r.lastId
  strand : ∀ handler ∈ r.strand, handlerId handler ≤ r.lastId
  members : ∀ m ∈ r.members.map identity, m.2 ≤ r.lastId

section Ids

variable {b names} {r r' : Registry} {e e' : Exchange} {effects : List RegistryEffect}

theorem Bounded.congr (h : Bounded r) {members : List Member} {strand : List RegistryHandler}
    (hmembers : members.map identity = r.members.map identity)
    (hstrand : ∀ handler ∈ strand, handlerId handler ≤ r.lastId) :
    Bounded { r with members, strand } where
  sorted := h.sorted
  list := h.list
  strand := hstrand
  members := hmembers ▸ h.members

theorem le_lastId_of_lock (h : Bounded r) {id : ℕ} {m : Member} (hlock : r.lock id = some m) :
    m.id ≤ r.lastId :=
  h.members (identity m) (List.mem_map_of_mem (List.mem_of_find?_eq_some hlock))

theorem bounded_run (h : Bounded r) (hrun : Registry.run b r = .ok (r', effects)) :
    Bounded r' ∧ r'.lastId = r.lastId := by
  rw [Registry.run] at hrun
  split at hrun
  · obtain ⟨rfl, -⟩ := Prod.mk.inj (Except.ok.inj hrun)
    exact ⟨h, rfl⟩
  · next id strand hstrand =>
    have htail : ∀ handler ∈ strand, handlerId handler ≤ r.lastId := fun handler hmem =>
      h.strand handler (hstrand ▸ List.mem_cons_of_mem _ hmem)
    split at hrun
    · obtain ⟨rfl, -⟩ := Prod.mk.inj (Except.ok.inj hrun)
      exact ⟨h.congr rfl htail, rfl⟩
    · next m hlock =>
      obtain ⟨_, -, hok⟩ := bind_eq_ok_iff.mp hrun
      obtain ⟨rfl, -⟩ := Prod.mk.inj (Except.ok.inj hok)
      obtain ⟨hid, -⟩ := Registry.mem_ids_of_lock hlock
      have hle := le_lastId_of_lock h hlock
      refine ⟨⟨OrderedMap.sorted_insert h.sorted, fun x hx => ?_, htail, h.members⟩, rfl⟩
      rcases OrderedMap.mem_insert hx with rfl | hx
      · refine ⟨?_, hid ▸ hle⟩
        rw [Registry.getId]
        split_ifs
        · exact hle
        · exact Nat.zero_le _
      · exact h.list x hx
  · next id strand hstrand =>
    obtain ⟨rfl, -⟩ := Prod.mk.inj (Except.ok.inj hrun)
    exact ⟨⟨h.sorted.filter _, fun x hx => h.list x (List.mem_of_mem_filter hx),
      fun handler hmem => h.strand handler (hstrand ▸ List.mem_cons_of_mem _ hmem), h.members⟩, rfl⟩
  · next name strand hstrand =>
    obtain ⟨members, hmembers, hidentity⟩ := stopAll_eq { r with strand } (r.lookup name)
    obtain rfl : _ = r' := congrArg Prod.fst (Except.ok.inj hrun)
    rw [hmembers]
    exact ⟨h.congr hidentity fun handler hmem =>
      h.strand handler (hstrand ▸ List.mem_cons_of_mem _ hmem), rfl⟩
  · next id slot msg strand hstrand =>
    have htail : ∀ handler ∈ strand, handlerId handler ≤ r.lastId := fun handler hmem =>
      h.strand handler (hstrand ▸ List.mem_cons_of_mem _ hmem)
    split at hrun
    · obtain ⟨rfl, -⟩ := Prod.mk.inj (Except.ok.inj hrun)
      exact ⟨h.congr rfl htail, rfl⟩
    · next x hfind =>
      obtain ⟨members, hmembers, hidentity⟩ :=
        onChannel_eq { r with strand } x.2 (.dispatch slot msg)
      obtain rfl : _ = r' := congrArg Prod.fst (Except.ok.inj hrun)
      rw [hmembers]
      exact ⟨h.congr hidentity htail, rfl⟩

theorem bounded_step (h : Bounded r) {event : RegistryEvent}
    (hstep : Registry.step b r event = .ok (r', effects)) :
    Bounded r' ∧ r.lastId ≤ r'.lastId := by
  -- a handler without an id is posted
  have hpost {handler : RegistryHandler} (hid : handlerId handler ≤ r.lastId) :
      ∀ other ∈ r.strand ++ [handler], handlerId other ≤ r.lastId := by
    intro other hmem
    rcases List.mem_append.mp hmem with hmem | hmem
    · exact h.strand other hmem
    · exact List.mem_singleton.mp hmem ▸ hid
  cases event with
  | run =>
    obtain ⟨hbounded, hlast⟩ := bounded_run h hstep
    exact ⟨hbounded, hlast.ge⟩
  | create name slots stopIdx =>
    obtain ⟨rfl, -⟩ := Prod.mk.inj (Except.ok.inj hstep)
    have hsucc := Nat.le_succ r.lastId
    refine ⟨⟨h.sorted, fun x hx => ?_, fun handler hmem => ?_, fun m hm => ?_⟩, hsucc⟩
    · exact ⟨(h.list x hx).1.trans hsucc, (h.list x hx).2.trans hsucc⟩
    · simp only [Registry.create] at hmem
      split_ifs at hmem
      · exact (h.strand handler hmem).trans hsucc
      · rcases List.mem_append.mp hmem with hmem | hmem
        · exact (h.strand handler hmem).trans hsucc
        · exact List.mem_singleton.mp hmem ▸ le_rfl
    · simp only [Registry.create, List.map_append, List.mem_append, List.map_singleton,
        List.mem_singleton] at hm
      rcases hm with hm | rfl
      · exact (h.members m hm).trans hsucc
      · exact le_rfl
  | channel id event =>
    obtain ⟨members, hmembers, hidentity⟩ := onChannel_eq r id event
    obtain rfl : _ = r' := congrArg Prod.fst (Except.ok.inj hstep)
    rw [hmembers]
    exact ⟨h.congr hidentity h.strand, le_rfl⟩
  | destroy id =>
    rw [Registry.step, Registry.destroy] at hstep
    split at hstep
    · obtain ⟨rfl, -⟩ := Prod.mk.inj (Except.ok.inj hstep)
      exact ⟨h, le_rfl⟩
    · next m hlock =>
      by_cases hheld : r.isHeld id = true
      · rw [if_pos hheld] at hstep
        obtain ⟨rfl, -⟩ := Prod.mk.inj (Except.ok.inj hstep)
        exact ⟨h, le_rfl⟩
      · rw [if_neg hheld] at hstep
        obtain ⟨_, -, hok⟩ := bind_eq_ok_iff.mp hstep
        obtain ⟨rfl, -⟩ := Prod.mk.inj (Except.ok.inj hok)
        obtain ⟨hid, -⟩ := Registry.mem_ids_of_lock hlock
        refine ⟨⟨h.sorted, h.list, ?_, fun m hm => ?_⟩, le_rfl⟩
        · simp only
          split_ifs
          · exact h.strand
          · exact hpost (hid ▸ le_lastId_of_lock h hlock)
        · obtain ⟨m', hm', rfl⟩ := List.mem_map.mp hm
          exact h.members _ (List.mem_map_of_mem (List.mem_of_mem_filter hm'))
  | stop name =>
    obtain ⟨rfl, -⟩ := Prod.mk.inj (Except.ok.inj hstep)
    exact ⟨h.congr rfl (hpost (Nat.zero_le _)), le_rfl⟩
  | dispatch id slot msg =>
    simp only [Registry.step] at hstep
    split_ifs at hstep
    · obtain ⟨rfl, -⟩ := Prod.mk.inj (Except.ok.inj hstep)
      exact ⟨h, le_rfl⟩
    · obtain ⟨rfl, -⟩ := Prod.mk.inj (Except.ok.inj hstep)
      exact ⟨h.congr rfl (hpost (Nat.zero_le _)), le_rfl⟩
  | shutdown =>
    have hr' : r.shutdown.1 = r' := congrArg Prod.fst (Except.ok.inj hstep)
    simp only [Registry.shutdown] at hr'
    split_ifs at hr'
    · exact hr' ▸ ⟨h, le_rfl⟩
    · obtain ⟨members, hmembers, hidentity⟩ :=
        stopAll_eq { r with isShutdown := true } (r.list.reverse.map Prod.snd)
      rw [hmembers] at hr'
      subst hr'
      exact ⟨⟨OrderedMap.sorted_nil, by simp, h.strand, hidentity ▸ h.members⟩, le_rfl⟩
  | reset =>
    obtain ⟨_, -, hok⟩ := bind_eq_ok_iff.mp hstep
    obtain ⟨rfl, -⟩ := Prod.mk.inj (Except.ok.inj hok)
    exact ⟨⟨h.sorted, h.list, h.strand, h.members⟩, le_rfl⟩

theorem mem_strand {handler : RegistryHandler} :
    handler ∈ e.registry.strand ↔ .inl handler ∈ e.posted := by
  simp only [registry, List.mem_filterMap]
  constructor
  · rintro ⟨post, hmem, hleft⟩
    cases post with
    | inl h => exact Option.some.inj hleft ▸ hmem
    | inr request => simp at hleft
  · exact fun hmem => ⟨_, hmem, rfl⟩

theorem bounded_ofRegistry (h : Bounded r) {posted : List Post}
    (hposted : ∀ handler, .inl handler ∈ posted → handlerId handler ≤ r.lastId) :
    Bounded (ofRegistry r posted).registry :=
  h.congr rfl fun handler hmem => hposted handler (mem_strand.mp hmem)

theorem bounded_exchange (h : Bounded e.registry) {event : ExchangeEvent}
    (hstep : step b names e event = .ok (e', effects)) : Bounded e'.registry := by
  have hposted : ∀ handler, .inl handler ∈ e.posted → handlerId handler ≤ e.lastId :=
    fun handler hmem => h.strand handler (mem_strand.mpr hmem)
  cases event with
  | post request =>
    simp only [step] at hstep
    split_ifs at hstep
    · obtain ⟨rfl, -⟩ := Prod.mk.inj (Except.ok.inj hstep)
      exact h
    · obtain ⟨rfl, -⟩ := Prod.mk.inj (Except.ok.inj hstep)
      exact bounded_ofRegistry (r := e.registry) h fun handler hmem =>
        hposted handler (by simpa using hmem)
  | registry event =>
    by_cases hrun : event = .run
    · subst hrun
      replace hstep : run b names e = .ok (e', effects) := hstep
      rw [run] at hstep
      split at hstep
      · obtain ⟨rfl, -⟩ := Prod.mk.inj (Except.ok.inj hstep)
        exact h
      · next handler posted heq =>
        obtain ⟨⟨r', out⟩, hhandler, hok⟩ := bind_eq_ok_iff.mp hstep
        obtain ⟨rfl, -⟩ := Prod.mk.inj (Except.ok.inj hok)
        have hone : Bounded { e.registry with strand := [handler] } :=
          h.congr rfl fun other hmem => hposted other
            (by rw [heq, List.mem_singleton.mp hmem]; exact List.mem_cons_self)
        obtain ⟨hbounded, hlast⟩ := bounded_run hone hhandler
        refine bounded_ofRegistry hbounded fun other hmem => ?_
        rw [hlast]
        exact hposted other (heq ▸ List.mem_cons_of_mem _ hmem)
      · next request posted heq =>
        obtain ⟨r', hperform, hok⟩ := bind_eq_ok_iff.mp hstep
        obtain ⟨rfl, -⟩ := Prod.mk.inj (Except.ok.inj hok)
        obtain ⟨_, -, hdeliver⟩ := bind_eq_ok_iff.mp hperform
        obtain rfl := Except.ok.inj hdeliver
        obtain ⟨members, hmembers, hidentity⟩ :=
          deliver_eq names request.slot request.msg e.registry (request.recipients e.registry)
        rw [hmembers]
        exact bounded_ofRegistry (h.congr hidentity h.strand) fun other hmem =>
          hposted other (heq ▸ List.mem_cons_of_mem _ hmem)
    · obtain ⟨⟨r', out⟩, hregistry, hok⟩ := bind_eq_ok_iff.mp (of_call hrun hstep)
      obtain ⟨rfl, -⟩ := Prod.mk.inj (Except.ok.inj hok)
      obtain ⟨hbounded, hlast⟩ := bounded_step h hregistry
      refine bounded_ofRegistry hbounded fun handler hmem => ?_
      rcases List.mem_append.mp hmem with hmem | hmem
      · exact (hposted handler hmem).trans hlast
      · obtain ⟨other, hother, heq⟩ := List.mem_map.mp hmem
        obtain rfl := Sum.inl.inj heq
        exact hbounded.strand other (List.mem_of_mem_drop hother)

end Ids

/-! ### The mail of a channel -/

section Main

variable {b names} {lone : Bool} {name : Bytes} {slots : ℕ} {stopIdx : Fin slots}
  {e e' : Exchange} {before after : List ExchangeEvent} {effects effects' : List RegistryEffect}

theorem bounded_initial : Bounded initial.registry where
  sorted := OrderedMap.sorted_nil
  list := by simp [registry, initial]
  strand := by simp [registry, initial]
  members := by simp [registry, initial]

theorem bounded_reachable (hbefore : Step.run (step b names) initial before = .ok (e, effects)) :
    Bounded e.registry := by
  induction before using List.reverseRecOn generalizing e effects with
  | nil =>
    obtain ⟨rfl, -⟩ : initial = e ∧ effects = [] := by simpa using hbefore
    exact bounded_initial
  | append_singleton before event ih =>
    obtain ⟨t, head, tail, hrun, hlast, -⟩ := Step.run_append_eq_ok_iff.mp hbefore
    rw [Step.run_singleton_eq] at hlast
    exact bounded_exchange (ih hrun) hlast

/-- A channel that was just created waits for its insertion. -/
theorem served_create (hbounded : Bounded e.registry) (hup : e.isShutdown = false)
    (halone : lone = true → ∀ m ∈ e.members, m.name ≠ name)
    (hstep : step b names e (.registry (.create name slots stopIdx)) = .ok (e', effects)) :
    Served lone (e.lastId + 1) name e' (Channel.opened slots stopIdx) [] ∧ effects = [] := by
  obtain ⟨⟨r', out⟩, hregistry, hok⟩ := bind_eq_ok_iff.mp (of_call (by simp) hstep)
  obtain ⟨rfl, rfl⟩ := Prod.mk.inj (Except.ok.inj hok)
  obtain ⟨rfl, rfl⟩ := Prod.mk.inj (Except.ok.inj hregistry)
  -- nobody has the new id so far
  have hfresh : ∀ m ∈ e.members, m.id ≠ e.lastId + 1 := fun m hm =>
    (Nat.lt_succ_of_le (hbounded.members _ (List.mem_map_of_mem hm))).ne
  have hlist : ∀ x ∈ e.list, x.1 ≠ e.lastId + 1 ∧ x.2 ≠ e.lastId + 1 := fun x hx =>
    ⟨(Nat.lt_succ_of_le (hbounded.list x hx).1).ne, (Nat.lt_succ_of_le (hbounded.list x hx).2).ne⟩
  have hposted : ∀ handler, .inl handler ∈ e.posted → handlerId handler ≠ e.lastId + 1 :=
    fun handler hmem => (Nat.lt_succ_of_le (hbounded.strand handler (mem_strand.mpr hmem))).ne
  have hnew : ((e.registry.create name slots stopIdx).strand.drop
      e.registry.strand.length).map Sum.inl = [(.inl (.insert (e.lastId + 1)) : Post)] := by
    have hdown : e.registry.isShutdown = false := hup
    simp only [Registry.create, hdown, Bool.false_eq_true, if_false, List.drop_left]
    rfl
  rw [hnew]
  refine ⟨⟨⟨?_, rfl, by simp [Channel.Valid, Channel.opened], ?_, hbounded.sorted, ?_, hup⟩, ?_,
    by simp, ?_, ?_, by simp⟩, rfl⟩
  · have hnone : e.members.find? (fun m => m.id = e.lastId + 1) = none := by
      refine List.find?_eq_none.mpr fun m hm => ?_
      simpa using hfresh m hm
    change (e.members ++ [_]).find? _ = _
    rw [List.find?_append, hnone]
    simp [registry]
  · intro x hx hown
    rcases hown with hown | hown
    · exact absurd hown (hlist x hx).1
    · exact absurd hown (hlist x hx).2
  · exact ⟨Nat.succ_pos _, le_rfl⟩
  · exact .waiting (fun hmem => (hlist _ hmem).1 rfl) rfl fun hmem => hposted _ hmem rfl
  · intro hmem
    rcases List.mem_append.mp hmem with hmem | hmem
    · exact hposted _ hmem rfl
    · simp at hmem
  · intro hlone id hmem
    obtain ⟨m, hm, heq⟩ := List.mem_map.mp hmem
    obtain ⟨hname, hid⟩ := Prod.mk.inj heq
    rcases List.mem_append.mp hm with hm | hm
    · exact absurd hname (halone hlone m hm)
    · exact hid.symm.trans (congrArg Member.id (List.mem_singleton.mp hm))

/-- However the strands take turns, a channel gets the mail that is posted after its creation
exactly once and in order, as long as it is open and the registry is not shut down: what was
called and what waits on the strand of the channel is what arrived; what arrived over the
registry and what waits there is what was posted; and what others dispatched to the channel
itself arrived, too. -/
theorem mail_delivered (hbefore : Step.run (step b names) initial before = .ok (e, effects))
    (hup : e.isShutdown = false) (halone : lone = true → ∀ m ∈ e.members, m.name ≠ name)
    (hquiet : ∀ event ∈ after, Undisturbed lone (e.lastId + 1) name event)
    (hrun : Step.run (step b names) e (.registry (.create name slots stopIdx) :: after) =
      .ok (e', effects')) :
    ∃ c ahead arrived, e'.registry.lock (e.lastId + 1) = some ⟨name, e.lastId + 1, c⟩ ∧
      Ahead (e.lastId + 1) e' ahead ∧
      calledBy .message (effectsOn (e.lastId + 1) effects') ++ c.queued = valid slots arrived ∧
      sentBy .registry arrived ++ ahead.flatMap (mail names (e.lastId + 1) name) =
        after.flatMap (mailOf names (e.lastId + 1) name) ∧
      sentBy .direct arrived = after.flatMap (directOf (e.lastId + 1)) := by
  have hbounded := bounded_reachable hbefore
  obtain ⟨t, head, tail, hstep, hrest, rfl⟩ := Step.run_cons_eq_ok_iff.mp hrun
  obtain ⟨hserved, rfl⟩ := served_create hbounded hup halone hstep
  obtain ⟨c, ahead, arrived, hserved', hcarried⟩ := served_runs hserved hquiet hrest
  exact ⟨c, ahead, arrived, hserved'.known.lock, hserved'.place, hcarried.called, hcarried.posted,
    hcarried.direct⟩

/-- A channel is created, a message is posted to all channels of its name, and everything that
is posted is carried out. -/
def sampleMail : List ExchangeEvent :=
  [.registry (.create [] 1 (Fin.last 0)), .post (.dispatchName [] [] [.size 7]), .registry .run,
    .registry .run, .registry (.channel 1 .run)]

theorem mail_delivered_sampleMail :
    ∃ e' effects', Step.run (step .debug fun _ _ => 0) initial sampleMail = .ok (e', effects') ∧
      ∃ c ahead arrived, e'.registry.lock 1 = some ⟨[], 1, c⟩ ∧ Ahead 1 e' ahead ∧
        calledBy .message (effectsOn 1 effects') ++ c.queued = valid 1 arrived ∧
        sentBy .registry arrived ++ ahead.flatMap (mail (fun _ _ => 0) 1 []) =
          sampleMail.tail.flatMap (mailOf (fun _ _ => 0) 1 []) ∧
        sentBy .direct arrived = sampleMail.tail.flatMap (directOf 1) := by
  have hquiet : ∀ event ∈ sampleMail.tail, Undisturbed false 1 [] event := by
    simp [sampleMail, Undisturbed]
  have hbefore : Step.run (step .debug fun _ _ => 0) initial [] = .ok (initial, []) := rfl
  exact ⟨_, _, rfl, mail_delivered hbefore rfl (by simp) hquiet rfl⟩

end Main

end Exchange

end Task

end Cyng
