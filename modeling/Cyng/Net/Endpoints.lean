import Cyng.Net.Resolver

/-!
# The endpoints of a host

A resolver tries the endpoints of the host in the order in which they were found. Resolvers that
are at work at the same time do not get in each other's way with that, and neither does a client
that has forgotten about them: what a resolver did is decided by its own handlers.
-/

namespace Cyng

open Theory

namespace Net

variable {E : Type}

/-- What a resolver has tried is what it has to try up to here. When it has called back with a
socket that is connected, the last endpoint was the one, and otherwise it has tried all. -/
structure Tries (i : ℕ) (r : Resolver E) (effects : List (ConnectorEffect E)) : Prop where
  waiting : .connect ∈ r.strand → tried i effects = []
  connecting : ∀ pos, r.connecting = some pos →
    pos < r.endpoints.length ∧ tried i effects = r.endpoints.take (pos + 1)
  inOrder : ∃ k, tried i effects = r.endpoints.take k
  connected : ∀ endpoint, .connected i endpoint ∈ effects →
    (tried i effects).getLast? = some endpoint
  failed : .failed i ∈ effects → tried i effects = r.endpoints

/-- The effects are those of other resolvers. -/
def Silent (i : ℕ) (effects : List (ConnectorEffect E)) : Prop :=
  tried i effects = [] ∧ i ∉ answered effects

section Tries

variable {i pos : ℕ} {r r' : Resolver E} {c c' : Connector E} {a s : List ℕ} {endpoint : E}
  {effects out : List (ConnectorEffect E)} {found : Except ErrorCode (List E)} {retry : Option ℕ}

theorem mem_answered_of_connected (h : .connected i endpoint ∈ effects) : i ∈ answered effects :=
  List.mem_filterMap.mpr ⟨_, h, rfl⟩

theorem mem_answered_of_failed (h : .failed i ∈ effects) : i ∈ answered effects :=
  List.mem_filterMap.mpr ⟨_, h, rfl⟩

/-- A resolver that does nothing has tried what it had tried. -/
theorem Tries.of_silent (h : Tries i r effects) (hsilent : Silent i out)
    (hendpoints : r'.endpoints = r.endpoints) (hconnecting : r'.connecting = r.connecting)
    (hstrand : .connect ∈ r'.strand → .connect ∈ r.strand) : Tries i r' (effects ++ out) := by
  have htried : tried i (effects ++ out) = tried i effects := by
    rw [tried_append, hsilent.1, List.append_nil]
  constructor
  · rw [htried]
    exact fun hmem => h.waiting (hstrand hmem)
  · rw [htried, hendpoints, hconnecting]
    exact h.connecting
  · rw [htried, hendpoints]
    exact h.inOrder
  · intro endpoint hmem
    rw [htried]
    rcases List.mem_append.mp hmem with hmem | hmem
    · exact h.connected endpoint hmem
    · exact absurd (mem_answered_of_connected hmem) hsilent.2
  · intro hmem
    rw [htried, hendpoints]
    rcases List.mem_append.mp hmem with hmem | hmem
    · exact h.failed hmem
    · exact absurd (mem_answered_of_failed hmem) hsilent.2

theorem Tries.callback {j : ℕ} {socket : Option E} (h : Tries i (c.resolvers i) effects)
    (hcall : c.callback j socket retry = .ok (c', out))
    (hself : j = i → (∀ endpoint, socket = some endpoint →
      (tried i effects).getLast? = some endpoint) ∧
      (socket = none → tried i effects = (c.resolvers i).endpoints)) :
    Tries i (c'.resolvers i) (effects ++ out) := by
  obtain ⟨k, -, rfl, -, hanswered, htried, hconnected, hfailed⟩ := Connector.callback_cases hcall
  obtain ⟨hendpoints, hconnecting, hstrand', -⟩ := Connector.stopChannel_work c k i
  have hstrand := hstrand'.mp
  rcases eq_or_ne j i with rfl | hne
  · obtain ⟨hlast, hall⟩ := hself rfl
    have hsame : tried j (effects ++ out) = tried j effects := by
      rw [tried_append, htried, List.append_nil]
    constructor
    · rw [hsame]
      exact fun hmem => h.waiting (hstrand hmem)
    · rw [hsame, hendpoints, hconnecting]
      exact h.connecting
    · rw [hsame, hendpoints]
      exact h.inOrder
    · intro endpoint hmem
      rw [hsame]
      rcases List.mem_append.mp hmem with hmem | hmem
      · exact h.connected endpoint hmem
      · exact hlast endpoint (hconnected endpoint hmem)
    · intro hmem
      rw [hsame, hendpoints]
      rcases List.mem_append.mp hmem with hmem | hmem
      · exact h.failed hmem
      · exact hall (hfailed hmem)
  · refine h.of_silent ⟨htried i, ?_⟩ hendpoints hconnecting hstrand
    rw [hanswered, List.mem_singleton]
    exact hne.symm

/-- The next endpoint is tried, or there is none. -/
theorem Tries.connectNext {j : ℕ} (h : Tries i (c.resolvers i) effects)
    (hcall : c.connectNext j pos retry = .ok (c', out))
    (hself : j = i → tried i effects = (c.resolvers i).endpoints.take pos ∧
      i ∉ answered effects ∧ .connect ∉ (c.resolvers i).strand) :
    Tries i (c'.resolvers i) (effects ++ out) := by
  unfold Connector.connectNext at hcall
  split at hcall
  · rename_i endpoint hendpoint
    obtain ⟨rfl, rfl⟩ := Prod.mk.inj (Except.ok.inj hcall)
    rcases eq_or_ne j i with rfl | hne
    · obtain ⟨htaken, hnew, hstrand⟩ := hself rfl
      rw [Connector.set_self]
      have htried : tried j (effects ++ [.asyncConnect j endpoint]) =
          (c.resolvers j).endpoints.take (pos + 1) := by
        rw [tried_append, htaken, List.take_add_one, hendpoint]
        simp [tried]
      have hanswered : j ∉ answered (effects ++ [.asyncConnect j endpoint]) := by
        simpa [answered] using hnew
      obtain ⟨hlt, -⟩ := List.getElem?_eq_some_iff.mp hendpoint
      constructor
      · exact fun hmem => absurd hmem hstrand
      · intro pos' hpos
        obtain rfl := Option.some.inj hpos
        exact ⟨hlt, htried⟩
      · exact ⟨pos + 1, htried⟩
      · exact fun _ hmem => absurd (mem_answered_of_connected hmem) hanswered
      · exact fun hmem => absurd (mem_answered_of_failed hmem) hanswered
    · rw [Connector.set_of_ne hne.symm]
      refine h.of_silent ⟨?_, ?_⟩ rfl rfl id
      · simp [tried, hne]
      · simp [answered]
  · rename_i hnone
    refine h.callback hcall fun heq => ⟨fun e hsome => ?_, fun _ => ?_⟩
    · exact absurd hsome.symm (Option.some_ne_none e)
    · subst heq
      rw [(hself rfl).1, List.take_of_length_le (List.getElem?_eq_none_iff.mp hnone)]

theorem Tries.resolve {j : ℕ} (h : Tries i (c.resolvers i) effects)
    (hcall : c.resolve j found retry = .ok (c', out))
    (hself : j = i → tried i effects = [] ∧ i ∉ answered effects ∧ (c.resolvers i).Through) :
    Tries i (c'.resolvers i) (effects ++ out) := by
  have hset (endpoints : List E) :
      Tries i ((c.set j { c.resolvers j with endpoints := endpoints }).resolvers i) effects := by
    rcases eq_or_ne j i with rfl | hne
    · obtain ⟨hnothing, hnew, hstrand, hconnecting⟩ := hself rfl
      rw [Connector.set_self]
      constructor
      · exact fun hmem => absurd hmem hstrand
      · exact fun pos hpos => absurd (hpos.symm.trans hconnecting) (Option.some_ne_none pos)
      · exact ⟨0, hnothing⟩
      · exact fun _ hmem => absurd (mem_answered_of_connected hmem) hnew
      · exact fun hmem => absurd (mem_answered_of_failed hmem) hnew
    · rw [Connector.set_of_ne hne.symm]
      exact h
  cases found with
  | ok endpoints =>
    apply (hset endpoints).connectNext hcall
    rintro rfl
    obtain ⟨hnothing, hnew, hstrand, -⟩ := hself rfl
    rw [Connector.set_self]
    exact ⟨hnothing, hnew, hstrand⟩
  | error ec =>
    have hback : Connector.callback (c.set j { c.resolvers j with endpoints := [] }) j none retry =
        .ok (c', out) := hcall
    refine (hset []).callback hback fun heq => ⟨fun e hsome => ?_, fun _ => ?_⟩
    · exact absurd hsome.symm (Option.some_ne_none e)
    · subst heq
      rw [Connector.set_self]
      exact (hself rfl).1

theorem Tries.letGo (h : Tries i (c.resolvers i) effects) (j : ℕ) :
    Tries i ((c.letGo j).resolvers i) effects := by
  obtain ⟨alive, hr⟩ := Connector.exists_letGo_resolvers c j i
  rw [hr]
  exact ⟨h.waiting, h.connecting, h.inOrder, h.connected, h.failed⟩

theorem Tries.run {j : ℕ} (h : Tries i (c.resolvers i) effects)
    (hkept : c.KeptAll (answered effects) s) (hcall : c.run j found retry = .ok (c', out)) :
    Tries i (c'.resolvers i) (effects ++ out) := by
  -- taking a handler from the strand is no work
  have htaken (strand : List ResolverHandler) (alive : Bool)
      (hstrand : .connect ∈ strand → .connect ∈ (c.resolvers j).strand) :
      Tries i ((c.set j { c.resolvers j with strand := strand, alive := alive }).resolvers i)
        (effects ++ []) := by
    rcases eq_or_ne j i with rfl | hne
    · rw [Connector.set_self]
      exact h.of_silent ⟨rfl, List.not_mem_nil⟩ rfl rfl hstrand
    · rw [Connector.set_of_ne hne.symm]
      exact h.of_silent ⟨rfl, List.not_mem_nil⟩ rfl rfl id
  unfold Connector.run at hcall
  split at hcall
  · obtain ⟨rfl, rfl⟩ := Prod.mk.inj (Except.ok.inj hcall)
    exact h.of_silent ⟨rfl, List.not_mem_nil⟩ rfl rfl id
  · rename_i strand hstrand
    obtain ⟨rfl, rfl⟩ := Prod.mk.inj (Except.ok.inj hcall)
    apply htaken strand false
    rw [hstrand]
    exact fun hmem => List.mem_cons_of_mem _ hmem
  · rename_i strand hstrand
    have hmem : .connect ∈ (c.resolvers j).strand := by simp [hstrand]
    have hrest : .connect ∉ strand := by
      have honce := hkept.once j
      rwa [hstrand] at honce
    have hstart := htaken strand (c.resolvers j).alive fun hmem => absurd hmem hrest
    dsimp only at hcall
    split at hcall
    · obtain ⟨⟨c₁, out₁⟩, hresolve, hret⟩ := bind_eq_ok_iff.mp hcall
      obtain ⟨rfl, rfl⟩ := Prod.mk.inj (Except.ok.inj hret)
      rw [List.append_nil] at hstart
      refine (hstart.resolve hresolve ?_).letGo j
      rintro rfl
      rw [Connector.set_self]
      exact ⟨h.waiting hmem, hkept.notMem fun hdone => hdone.1 hmem, hrest, hkept.waits j hmem⟩
    · obtain ⟨rfl, rfl⟩ := Prod.mk.inj (Except.ok.inj hcall)
      exact hstart.letGo j

theorem Tries.handleConnect {j : ℕ} {isOpen : Bool} {ec : Option ErrorCode}
    (h : Tries i (c.resolvers i) effects) (hkept : c.KeptAll (answered effects) s)
    (hcall : c.handleConnect j isOpen ec retry = .ok (c', out)) :
    Tries i (c'.resolvers i) (effects ++ out) := by
  unfold Connector.handleConnect at hcall
  split at hcall
  · obtain ⟨rfl, rfl⟩ := Prod.mk.inj (Except.ok.inj hcall)
    exact h.of_silent ⟨rfl, List.not_mem_nil⟩ rfl rfl id
  · rename_i pos hpos
    have hwork : (c.resolvers j).connecting ≠ none := by simp [hpos]
    have hdone :
        Tries i ((c.set j { c.resolvers j with connecting := none }).resolvers i) effects := by
      rcases eq_or_ne j i with rfl | hne
      · rw [Connector.set_self]
        refine ⟨h.waiting, fun pos' hpos' => ?_, h.inOrder, h.connected, h.failed⟩
        exact absurd hpos'.symm (Option.some_ne_none pos')
      · rw [Connector.set_of_ne hne.symm]
        exact h
    dsimp only at hcall
    split_ifs at hcall
    · -- connected: the endpoint was the last one that was tried
      refine hdone.callback hcall fun heq => ?_
      subst heq
      obtain ⟨hlt, htried⟩ := h.connecting pos hpos
      constructor
      · intro endpoint hsocket
        rw [htried, List.getLast?_take, if_neg (Nat.succ_ne_zero pos), Nat.add_sub_cancel, hsocket]
        rfl
      · intro hnone
        exact absurd (List.getElem?_eq_none_iff.mp hnone) (Nat.not_le_of_lt hlt)
    · refine hdone.connectNext hcall fun heq => ?_
      subst heq
      rw [Connector.set_self]
      exact ⟨(h.connecting pos hpos).2, hkept.notMem fun hthrough => hwork hthrough.2,
        fun hmem => hwork (hkept.waits j hmem)⟩

theorem Tries.connect (h : Tries i (c.resolvers i) effects)
    (hkept : c.KeptAll (answered effects) s) (host service : Bytes) :
    Tries i ((c.connect host service).resolvers i) effects := by
  unfold Connector.connect
  split
  · obtain ⟨alive, hr⟩ := Connector.exists_replace_resolvers
      { c.set c.opened (.opened host service) with opened := c.opened + 1 } (some c.opened) i
    have hopened : Tries i ((c.set c.opened (.opened host service)).resolvers i) effects := by
      rcases eq_or_ne i c.opened with rfl | hne
      · -- before it was opened it could do nothing
        have hnew : c.opened ∉ answered effects := fun hmem =>
          (hkept.answered_through _ hmem).1.false
        have hnothing : tried c.opened effects = [] := by
          obtain ⟨k, hk⟩ := h.inOrder
          rw [hk, (hkept.absent _ (Nat.le_refl _)).2.2, List.take_nil]
        rw [Connector.set_self]
        constructor
        · exact fun _ => hnothing
        · exact fun pos hpos => absurd hpos.symm (Option.some_ne_none pos)
        · exact ⟨0, hnothing⟩
        · exact fun _ hmem => absurd (mem_answered_of_connected hmem) hnew
        · exact fun hmem => absurd (mem_answered_of_failed hmem) hnew
      · rw [Connector.set_of_ne hne]
        exact h
    rw [hr]
    exact ⟨hopened.waiting, hopened.connecting, hopened.inOrder, hopened.connected, hopened.failed⟩
  · exact h

theorem Tries.stop (h : Tries i (c.resolvers i) effects) :
    Tries i (c.stop.resolvers i) effects := by
  unfold Connector.stop
  split
  · obtain ⟨alive, hr⟩ := Connector.exists_replace_resolvers c none i
    change Tries i ((c.replace none).resolvers i) effects
    rw [hr]
    exact ⟨h.waiting, h.connecting, h.inOrder, h.connected, h.failed⟩
  · exact h

theorem Tries.step {event : ConnectorEvent E} (h : Tries i (c.resolvers i) effects)
    (hkept : c.KeptAll (answered effects) s) (hstep : Connector.step c event = .ok (c', out)) :
    Tries i (c'.resolvers i) (effects ++ out) := by
  cases event with
  | connect host service =>
    obtain ⟨rfl, rfl⟩ := Prod.mk.inj (Except.ok.inj hstep)
    rw [List.append_nil]
    exact h.connect hkept host service
  | stop =>
    obtain ⟨rfl, rfl⟩ := Prod.mk.inj (Except.ok.inj hstep)
    rw [List.append_nil]
    exact h.stop
  | run j found retry => exact h.run hkept hstep
  | handleConnect j isOpen ec retry => exact h.handleConnect hkept hstep

theorem Tries.run_all {events : List (ConnectorEvent E)} (h : Tries i (c.resolvers i) effects)
    (hkept : c.KeptAll (answered effects) s)
    (hrun : Step.run Connector.step c events = .ok (c', out)) :
    Tries i (c'.resolvers i) (effects ++ out) := by
  induction events generalizing c s effects out with
  | nil =>
    obtain ⟨rfl, rfl⟩ : c = c' ∧ out = [] := by simpa [eq_comm] using hrun
    simpa using h
  | cons event events ih =>
    obtain ⟨t, first, rest, hstep, htail, hout⟩ := Step.run_cons_eq_ok_iff.mp hrun
    simp only at htail hout
    have hkept' := hkept.step hstep
    rw [← answered_append] at hkept'
    have hlast := ih (h.step hkept hstep) hkept' htail
    rw [hout, ← List.append_assoc]
    exact hlast

end Tries

/-- In every run, each resolver tries the endpoints in order and each of them once, up to the first
one that it can be connected to: that is the one that the client is told of, and where it is told
that the resolver failed, all of them were tried. -/
theorem tried_in_order {events : List (ConnectorEvent E)} {c' : Connector E}
    {effects : List (ConnectorEffect E)}
    (hrun : Step.run Connector.step .initial events = .ok (c', effects)) (i : ℕ) :
    (∃ k, tried i effects = (c'.resolvers i).endpoints.take k) ∧
    (∀ endpoint, .connected i endpoint ∈ effects →
      (tried i effects).getLast? = some endpoint) ∧
    (.failed i ∈ effects → tried i effects = (c'.resolvers i).endpoints) := by
  have hinitial : Tries i ((Connector.initial : Connector E).resolvers i) [] := by
    constructor
    · exact fun _ => rfl
    · exact fun pos hpos => absurd hpos.symm (Option.some_ne_none pos)
    · exact ⟨0, rfl⟩
    · exact fun _ hmem => absurd hmem List.not_mem_nil
    · exact fun hmem => absurd hmem List.not_mem_nil
  have htries := hinitial.run_all Connector.keptAll_initial hrun
  exact ⟨htries.inOrder, htries.connected, htries.failed⟩

theorem tried_in_order_sampleRequest :
    ∃ c' effects, Step.run Connector.step .initial sampleRequest = .ok (c', effects) ∧
      tried 0 effects = [4, 6] ∧ (tried 0 effects).getLast? = some 6 := by
  have hrun : Step.run Connector.step .initial sampleRequest = .ok (_, _) := rfl
  exact ⟨_, _, hrun, rfl, (tried_in_order hrun 0).2.1 6 (by decide)⟩

end Net

end Cyng
