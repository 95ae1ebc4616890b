import Cyng.Vm.Machine

/-!
# Op codes as values

The machine executes an op code instead of pushing it. Inside a container an op code does get
onto the stack, and from there into calls. No instruction makes an op code, and none makes a
copy of one: the op codes on the stack and those in the calls never become more. The exception
is a direct call of a function, whose result can be anything.
-/

namespace Cyng

mutual

/-- How many op codes an object contains. -/
def Obj.ops : Obj → ℕ
  | .scalar (.op _) => 1
  | .scalar _ => 0
  | .pair _ value => value.ops
  | .map _ entries => entriesOps entries
  | .seq _ items => itemsOps items
  | .prg _ => 0

def itemsOps : List Obj → ℕ
  | [] => 0
  | item :: items => item.ops + itemsOps items

def entriesOps : List (Key × Obj) → ℕ
  | [] => 0
  | (_, value) :: entries => value.ops + entriesOps entries

end

section Lists

theorem itemsOps_eq_sum (items : List Obj) : itemsOps items = (items.map Obj.ops).sum := by
  induction items with
  | nil => rfl
  | cons item items ih => rw [itemsOps, ih, List.map_cons, List.sum_cons]

@[simp] theorem itemsOps_append (items items' : List Obj) :
    itemsOps (items ++ items') = itemsOps items + itemsOps items' := by
  simp [itemsOps_eq_sum]

@[simp] theorem itemsOps_reverse (items : List Obj) : itemsOps items.reverse = itemsOps items := by
  simp [itemsOps_eq_sum]

theorem itemsOps_le_of_sublist {items items' : List Obj} (h : items.Sublist items') :
    itemsOps items ≤ itemsOps items' := by
  induction h with
  | slnil => exact Nat.le_refl _
  | cons item _ ih => exact Nat.le_add_left_of_le ih
  | cons_cons item _ ih => exact Nat.add_le_add_left ih _

@[simp] theorem entriesOps_append (entries entries' : List (Key × Obj)) :
    entriesOps (entries ++ entries') = entriesOps entries + entriesOps entries' := by
  induction entries with
  | nil => simp [entriesOps]
  | cons e entries ih => simp [entriesOps, ih, Nat.add_assoc]

@[simp] theorem entriesOps_reverse (entries : List (Key × Obj)) :
    entriesOps entries.reverse = entriesOps entries := by
  induction entries with
  | nil => rfl
  | cons e entries ih => simp [entriesOps, ih, Nat.add_comm]

theorem entriesOps_insert (k : Key) (x : Obj) (m : List (Key × Obj)) :
    entriesOps (Theory.OrderedMap.insert k x m) ≤ x.ops + entriesOps m := by
  induction m with
  | nil => exact Nat.le_refl _
  | cons e m ih =>
    obtain ⟨k', x'⟩ := e
    rw [Theory.OrderedMap.insert]
    split_ifs
    · exact Nat.le_refl _
    · exact Nat.le_add_left _ _
    · simp only [entriesOps]
      omega

/-- Entries with a key that is there already are dropped. -/
theorem entriesOps_ofEntries (entries : List (Key × Obj)) :
    entriesOps (Theory.OrderedMap.ofEntries entries) ≤ entriesOps entries := by
  induction entries with
  | nil => exact Nat.le_refl _
  | cons e entries ih =>
    have hinsert := entriesOps_insert e.1 e.2 (Theory.OrderedMap.ofEntries entries)
    simp only [Theory.OrderedMap.ofEntries, entriesOps]
    omega

end Lists

namespace Stack

/-- The op codes on the stack. -/
def ops (s : Stack) : ℕ := itemsOps s.items

@[simp] theorem ops_push (s : Stack) (o : Obj) : (s.push o).ops = s.ops + o.ops := by
  simp [ops, itemsOps]

section Inversion

variable {b : Build} {s s' : Stack} {o : Obj}

/-! ### What was on the stack when an access succeeds -/

theorem exists_push (h : s.items.getLast? = some o) :
    s = Stack.push ⟨s.items.dropLast, s.bp⟩ o := by
  obtain ⟨items, hitems⟩ := List.getLast?_eq_some_iff.mp h
  obtain ⟨_, bp⟩ := s
  simp only at hitems
  simp [hitems, push]

theorem top_eq_ok (h : s.top b = .ok o) : ∃ t : Stack, s = t.push o := by
  obtain ⟨_, -, h⟩ := bind_eq_ok_iff.mp h
  split at h
  case h_1 o' hlast =>
    obtain rfl := Except.ok.inj h
    exact ⟨_, exists_push hlast⟩
  case h_2 => cases h

theorem pop_eq_ok (h : s.pop b = .ok s') : ∃ o, s = s'.push o := by
  obtain ⟨_, -, h⟩ := bind_eq_ok_iff.mp h
  split_ifs at h with hnil
  obtain rfl := Except.ok.inj h
  exact ⟨_, exists_push (List.getLast?_eq_some_getLast hnil)⟩

theorem remove_eq_ok (h : s.remove b = .ok (o, s')) : s = s'.push o := by
  unfold remove at h
  split at h
  case h_1 o' hlast =>
    obtain ⟨t, hpop, h⟩ := bind_eq_ok_iff.mp h
    obtain ⟨rfl, rfl⟩ := Prod.mk.inj (Except.ok.inj h)
    rw [exists_push hlast, pop_push] at hpop
    rw [exists_push hlast, Except.ok.inj hpop]
  case h_2 => cases h

variable {T : Type} {cast : Obj → Option T} {default x : T}

theorem topValue_eq_ok (h : topValue b cast default s = .ok x) :
    ∃ (t : Stack) (o : Obj), s = t.push o ∧ x = (cast o).getD default := by
  obtain ⟨o, htop, hrest⟩ := bind_eq_ok_iff.mp h
  obtain ⟨_, -, hvalue⟩ := bind_eq_ok_iff.mp hrest
  obtain ⟨t, ht⟩ := top_eq_ok htop
  exact ⟨t, o, ht, (Except.ok.inj hvalue).symm⟩

theorem popValue_eq_ok (h : popValue b cast default s = .ok (x, s')) :
    ∃ o, s = s'.push o ∧ x = (cast o).getD default := by
  obtain ⟨v, htop, h⟩ := bind_eq_ok_iff.mp h
  obtain ⟨t, hpop, h⟩ := bind_eq_ok_iff.mp h
  obtain ⟨rfl, rfl⟩ := Prod.mk.inj (Except.ok.inj h)
  obtain ⟨u, o, rfl, hv⟩ := topValue_eq_ok htop
  rw [pop_push] at hpop
  exact ⟨o, by rw [Except.ok.inj hpop], hv⟩

theorem takeCount_eq_ok {text : String} {least : ℕ} {n : BitVec 64}
    (h : takeCount b text least s = .ok (n, s')) : ∃ o, s = s'.push o := by
  obtain ⟨_, -, h⟩ := bind_eq_ok_iff.mp h
  obtain ⟨_, -, h⟩ := bind_eq_ok_iff.mp h
  obtain ⟨_, -, h⟩ := bind_eq_ok_iff.mp h
  obtain ⟨t, hpop, h⟩ := bind_eq_ok_iff.mp h
  obtain ⟨-, rfl⟩ := Prod.mk.inj (Except.ok.inj h)
  exact pop_eq_ok hpop

/-- Taking elements one after the other, each of which weighs no more than what it took. -/
theorem ops_popMany {T : Type} {step : Stack → Except Fault (T × Stack)} (weight : T → ℕ)
    (hstep : ∀ s x s', step s = .ok (x, s') → weight x + s'.ops ≤ s.ops) {n : ℕ} {xs : List T}
    (h : popMany step n s = .ok (xs, s')) : (xs.map weight).sum + s'.ops ≤ s.ops := by
  induction n generalizing s xs with
  | zero =>
    obtain ⟨rfl, rfl⟩ := Prod.mk.inj (Except.ok.inj h)
    simp
  | succ n ih =>
    obtain ⟨⟨x, t⟩, hx, h⟩ := bind_eq_ok_iff.mp h
    obtain ⟨⟨ys, u⟩, hys, h⟩ := bind_eq_ok_iff.mp h
    obtain ⟨rfl, rfl⟩ := Prod.mk.inj (Except.ok.inj h)
    have hhead := hstep s x t hx
    have htail := ih hys
    simp only [List.map_cons, List.sum_cons]
    omega

theorem ops_moveTop (h : moveTop b s = .ok (o, s')) : o.ops + s'.ops ≤ s.ops := by
  obtain ⟨o', htop, h⟩ := bind_eq_ok_iff.mp h
  obtain ⟨t, hpop, h⟩ := bind_eq_ok_iff.mp h
  obtain ⟨rfl, rfl⟩ := Prod.mk.inj (Except.ok.inj h)
  obtain ⟨u, rfl⟩ := top_eq_ok htop
  rw [pop_push] at hpop
  rw [ops_push, Except.ok.inj hpop, Nat.add_comm]

end Inversion

section Instructions

variable {b : Build} {s s' : Stack}

/-! ### Instructions that change the stack only -/

theorem ops_makePair {kind : KeyKind} {text : String} (h : makePair b kind text s = .ok s') :
    s'.ops ≤ s.ops := by
  obtain ⟨_, -, h⟩ := bind_eq_ok_iff.mp h
  obtain ⟨⟨key, t⟩, hkey, h⟩ := bind_eq_ok_iff.mp h
  obtain ⟨⟨value, u⟩, hvalue, h⟩ := bind_eq_ok_iff.mp h
  obtain rfl := Except.ok.inj h
  obtain ⟨o, rfl, -⟩ := popValue_eq_ok hkey
  obtain rfl := remove_eq_ok hvalue
  simp [Obj.ops]

theorem ops_popPair {kind : KeyKind} {e : Key × Obj}
    (h : popValue b (asPair kind) (defaultPair kind) s = .ok (e, s')) :
    e.2.ops + s'.ops ≤ s.ops := by
  obtain ⟨o, rfl, he⟩ := popValue_eq_ok h
  have hpair : e.2.ops ≤ o.ops := by
    rw [he]
    cases o with
    | pair key value =>
      simp only [asPair]
      split_ifs
      · exact Nat.le_refl _
      · exact Nat.zero_le _
    | _ => exact Nat.zero_le _
  rw [ops_push]
  omega

theorem entriesOps_eq_sum (entries : List (Key × Obj)) :
    entriesOps entries = (entries.map fun e => e.2.ops).sum := by
  induction entries with
  | nil => rfl
  | cons e entries ih => rw [entriesOps, ih, List.map_cons, List.sum_cons]

theorem ops_makeMap {kind : KeyKind} {text : String} {least : ℕ}
    (h : makeMap b kind text least s = .ok s') : s'.ops ≤ s.ops := by
  obtain ⟨⟨n, t⟩, hcount, h⟩ := bind_eq_ok_iff.mp h
  obtain ⟨⟨entries, u⟩, hentries, h⟩ := bind_eq_ok_iff.mp h
  obtain rfl := Except.ok.inj h
  obtain ⟨o, rfl⟩ := takeCount_eq_ok hcount
  have hpop := ops_popMany (fun e => e.2.ops) (fun _ _ _ => ops_popPair) hentries
  have hmap := entriesOps_ofEntries entries.reverse
  rw [entriesOps_reverse, entriesOps_eq_sum entries] at hmap
  simp only [ops_push, Obj.ops]
  omega

theorem ops_makeSeq {kind : SeqKind} {text : String} (h : makeSeq b kind text s = .ok s') :
    s'.ops ≤ s.ops := by
  obtain ⟨⟨n, t⟩, hcount, h⟩ := bind_eq_ok_iff.mp h
  obtain ⟨⟨items, u⟩, hitems, h⟩ := bind_eq_ok_iff.mp h
  obtain rfl := Except.ok.inj h
  obtain ⟨o, rfl⟩ := takeCount_eq_ok hcount
  have hpop := ops_popMany Obj.ops (fun _ _ _ => ops_moveTop) hitems
  simp only [ops_push, Obj.ops, itemsOps_eq_sum]
  omega

theorem ops_makeVector (h : makeVector b s = .ok s') : s'.ops ≤ s.ops := by
  obtain ⟨⟨n, t⟩, hcount, h⟩ := bind_eq_ok_iff.mp h
  simp only at h
  split_ifs at h
  obtain ⟨⟨items, u⟩, hitems, h⟩ := bind_eq_ok_iff.mp h
  obtain rfl := Except.ok.inj h
  obtain ⟨o, rfl⟩ := takeCount_eq_ok hcount
  have hpop := ops_popMany Obj.ops (fun _ _ _ => ops_moveTop) hitems
  simp only [ops_push, Obj.ops, itemsOps_eq_sum]
  omega

theorem ops_makePrg (h : makePrg b s = .ok s') : s'.ops ≤ s.ops := by
  obtain ⟨⟨n, t⟩, hcount, h⟩ := bind_eq_ok_iff.mp h
  obtain ⟨⟨bufs, u⟩, hbufs, h⟩ := bind_eq_ok_iff.mp h
  obtain rfl := Except.ok.inj h
  obtain ⟨o, rfl⟩ := takeCount_eq_ok hcount
  have hbuffer (s : Stack) (buf : Bytes) (s' : Stack) (h : moveBuffer b s = .ok (buf, s')) :
      0 + s'.ops ≤ s.ops := by
    obtain ⟨o, htop, h⟩ := bind_eq_ok_iff.mp h
    obtain ⟨_, -, h⟩ := bind_eq_ok_iff.mp h
    obtain ⟨t, hpop, h⟩ := bind_eq_ok_iff.mp h
    obtain ⟨-, rfl⟩ := Prod.mk.inj (Except.ok.inj h)
    obtain ⟨o', rfl⟩ := pop_eq_ok hpop
    simp
  have hpop := ops_popMany (fun _ => 0) hbuffer hbufs
  simp only [ops_push, Obj.ops]
  omega

theorem ops_asSeq {kind : SeqKind} {o : Obj} : itemsOps ((asSeq kind o).getD []) ≤ o.ops := by
  cases o with
  | seq kind' items =>
    simp only [asSeq]
    split_ifs
    · exact Nat.le_refl _
    · exact Nat.zero_le _
  | _ => exact Nat.zero_le _

theorem ops_foldl_push (items : List Obj) (s : Stack) :
    (items.foldl push s).ops = s.ops + itemsOps items := by
  induction items generalizing s with
  | nil => rfl
  | cons item items ih => rw [List.foldl_cons, ih, ops_push, itemsOps, Nat.add_assoc]

theorem ops_disassemble {kind : SeqKind} (h : disassemble b kind s = .ok s') :
    s'.ops ≤ s.ops := by
  obtain ⟨items, htop, h⟩ := bind_eq_ok_iff.mp h
  obtain ⟨t, hpop, h⟩ := bind_eq_ok_iff.mp h
  obtain rfl := Except.ok.inj h
  obtain ⟨u, o, rfl, hitems⟩ := topValue_eq_ok htop
  rw [pop_push] at hpop
  obtain rfl := Except.ok.inj hpop
  have hle : itemsOps items ≤ o.ops := by
    rw [hitems]
    exact ops_asSeq
  simp only [ops_push, ops_foldl_push, Obj.ops]
  omega

theorem ops_split (h : s.split b = .ok s') : s'.ops ≤ s.ops := by
  obtain ⟨_, -, h⟩ := bind_eq_ok_iff.mp h
  obtain ⟨o, -, h⟩ := bind_eq_ok_iff.mp h
  split at h
  · exact ops_disassemble h
  · exact ops_disassemble h
  · exact ops_disassemble h
  · obtain ⟨_, -, h⟩ := bind_eq_ok_iff.mp h
    exact (congrArg ops (Except.ok.inj h)).ge

theorem ops_assertType (h : s.assertType b = .ok s') : s'.ops ≤ s.ops := by
  obtain ⟨_, -, h⟩ := bind_eq_ok_iff.mp h
  obtain ⟨⟨tag, t⟩, hpop, h⟩ := bind_eq_ok_iff.mp h
  have ht : t = s' := by
    simp only at h
    split_ifs at h
    · obtain ⟨_, -, h⟩ := bind_eq_ok_iff.mp h
      obtain ⟨_, -, h⟩ := bind_eq_ok_iff.mp h
      exact Except.ok.inj h
    · exact Except.ok.inj h
  obtain ⟨o, rfl, -⟩ := popValue_eq_ok hpop
  simp [ht]

theorem ops_assertValue {hasher : Hasher} (h : s.assertValue b hasher = .ok s') :
    s'.ops ≤ s.ops := by
  obtain ⟨_, -, h⟩ := bind_eq_ok_iff.mp h
  obtain ⟨⟨o, t⟩, hremove, h⟩ := bind_eq_ok_iff.mp h
  have ht : t = s' := by
    simp only at h
    split_ifs at h
    · obtain ⟨_, -, h⟩ := bind_eq_ok_iff.mp h
      obtain ⟨_, -, h⟩ := bind_eq_ok_iff.mp h
      exact Except.ok.inj h
    · exact Except.ok.inj h
  rw [remove_eq_ok hremove, ht]
  simp

theorem ops_reba (h : s.reba b = .ok s') : s'.ops ≤ s.ops := by
  obtain ⟨bp', -, h⟩ := bind_eq_ok_iff.mp h
  obtain ⟨_, -, h⟩ := bind_eq_ok_iff.mp h
  obtain ⟨_, -, h⟩ := bind_eq_ok_iff.mp h
  obtain rfl := Except.ok.inj h
  have hnull (n : ℕ) : itemsOps (List.replicate n (.scalar .null)) = 0 := by
    simp [itemsOps_eq_sum, Obj.ops]
  have htake := itemsOps_le_of_sublist (List.take_sublist s.bp.toNat s.items)
  simpa [ops, List.rightpad, hnull] using htake

theorem ops_pull (h : s.pull b = .ok s') : s'.ops ≤ s.ops := by
  obtain ⟨bp', -, h⟩ := bind_eq_ok_iff.mp h
  obtain ⟨_, -, h⟩ := bind_eq_ok_iff.mp h
  split_ifs at h
  obtain rfl := Except.ok.inj h
  exact itemsOps_le_of_sublist (List.eraseIdx_sublist s.items s.bp.toNat)

theorem ops_frm (h : s.frm b = .ok s') : s'.ops ≤ s.ops := by
  obtain ⟨_, -, h⟩ := bind_eq_ok_iff.mp h
  obtain rfl := Except.ok.inj h
  simp [Obj.ops]

/-- A call takes its arguments off the stack. -/
theorem ops_invoke {name : Bytes} {msg : List Obj} (h : s.invoke b = .ok ((name, msg), s')) :
    s'.ops + itemsOps msg ≤ s.ops := by
  obtain ⟨_, -, h⟩ := bind_eq_ok_iff.mp h
  obtain ⟨⟨name', t⟩, hname, h⟩ := bind_eq_ok_iff.mp h
  obtain ⟨u, htuple, h⟩ := bind_eq_ok_iff.mp h
  obtain ⟨⟨tpl, v⟩, htpl, h⟩ := bind_eq_ok_iff.mp h
  obtain ⟨⟨-, rfl⟩, rfl⟩ : (name' = name ∧ tpl.reverse = msg) ∧ v = s' := by
    simpa using Except.ok.inj h
  obtain ⟨o, hs, -⟩ := popValue_eq_ok hname
  obtain ⟨o', hu, hitems⟩ := popValue_eq_ok htpl
  have hle := ops_makeSeq htuple
  have hmsg : itemsOps tpl ≤ o'.ops := by
    rw [hitems]
    exact ops_asSeq
  rw [hu, ops_push] at hle
  rw [hs, ops_push, itemsOps_reverse]
  omega

/-- The number of a direct call is on the top of the stack. -/
theorem invokeR_eq_ok {id : BitVec 64} {msg : List Obj} (h : s.invokeR b = .ok ((id, msg), s')) :
    id = (s.items.getLast?.bind asSize).getD 0 := by
  obtain ⟨_, -, h⟩ := bind_eq_ok_iff.mp h
  obtain ⟨id', hid, h⟩ := bind_eq_ok_iff.mp h
  obtain ⟨_, -, h⟩ := bind_eq_ok_iff.mp h
  obtain ⟨_, -, h⟩ := bind_eq_ok_iff.mp h
  obtain ⟨_, -, h⟩ := bind_eq_ok_iff.mp h
  obtain ⟨_, -, h⟩ := bind_eq_ok_iff.mp h
  obtain ⟨_, -, h⟩ := bind_eq_ok_iff.mp h
  obtain ⟨⟨rfl, -⟩, -⟩ := by simpa using Except.ok.inj h
  obtain ⟨t, o, rfl, hvalue⟩ := topValue_eq_ok hid
  simpa using hvalue

end Instructions

end Stack

namespace Vm

section Execution

variable {b : Build} {env : VmEnv} {s s' : Stack} {effects : List VmEffect} {code : BitVec 16}

/-! ### All instructions -/

theorem silent_eq_ok {x : Except Fault Stack} (h : silent x = .ok (s', effects)) :
    x = .ok s' ∧ effects = [] := by
  obtain ⟨t, hx, h⟩ := bind_eq_ok_iff.mp h
  obtain ⟨rfl, rfl⟩ := Prod.mk.inj (Except.ok.inj h)
  exact ⟨hx, rfl⟩

theorem ops_resolve (h : resolve b env s = .ok (s', effects)) :
    effects = [] ∧ s'.ops ≤ s.ops := by
  obtain ⟨⟨name, t⟩, hname, h⟩ := bind_eq_ok_iff.mp h
  obtain ⟨o, hs, -⟩ := Stack.popValue_eq_ok hname
  rw [hs, Stack.ops_push]
  cases hchannel : env.channel with
  | none =>
    simp only [hchannel] at h
    obtain ⟨rfl, rfl⟩ := Prod.mk.inj (Except.ok.inj h)
    exact ⟨rfl, Nat.le_add_right _ _⟩
  | some channel =>
    simp only [hchannel] at h
    obtain ⟨rfl, rfl⟩ := Prod.mk.inj (Except.ok.inj h)
    exact ⟨rfl, by simp [Obj.ops]⟩

/-- What an op code can do: change the stack, or address another party. -/
theorem execOp_cases (h : execOp b env code s = .ok (s', effects)) :
    (effects = [] ∧ s'.ops ≤ s.ops) ∨
      (code = Op.invoke ∧ invoke b env s = .ok (s', effects)) ∨
      (code = Op.invokeR ∧ invokeR b env s = .ok (s', effects)) ∨
      (code = Op.forward ∧ forward b env s = .ok (s', effects)) := by
  have hsilent {x : Except Fault Stack} (h : silent x = .ok (s', effects))
      (hops : ∀ s', x = .ok s' → s'.ops ≤ s.ops) : effects = [] ∧ s'.ops ≤ s.ops := by
    obtain ⟨hx, heffects⟩ := silent_eq_ok h
    exact ⟨heffects, hops s' hx⟩
  have hpush {o : Obj} (h : (.ok (s.push o, []) : Except Fault (Stack × List VmEffect)) =
      .ok (s', effects)) (ho : o.ops = 0) : effects = [] ∧ s'.ops ≤ s.ops := by
    obtain ⟨rfl, rfl⟩ := Prod.mk.inj (Except.ok.inj h)
    exact ⟨rfl, by rw [Stack.ops_push, ho, Nat.add_zero]⟩
  -- one case for each op code, in the order of exec
  unfold execOp at h
  obtain ⟨-, h⟩ | ⟨-, h⟩ := ite_eq_iff.mp h
  · obtain ⟨rfl, rfl⟩ := Prod.mk.inj (Except.ok.inj h)
    exact Or.inl ⟨rfl, Nat.le_refl _⟩
  obtain ⟨-, h⟩ | ⟨-, h⟩ := ite_eq_iff.mp h
  · exact Or.inl (hpush h rfl)
  obtain ⟨-, h⟩ | ⟨-, h⟩ := ite_eq_iff.mp h
  · exact Or.inl (hpush h rfl)
  obtain ⟨-, h⟩ | ⟨-, h⟩ := ite_eq_iff.mp h
  · exact Or.inl (hpush h rfl)
  obtain ⟨-, h⟩ | ⟨-, h⟩ := ite_eq_iff.mp h
  · exact Or.inl (hpush h rfl)
  obtain ⟨hcode, h⟩ | ⟨-, h⟩ := ite_eq_iff.mp h
  · exact Or.inr (Or.inl ⟨hcode, h⟩)
  obtain ⟨hcode, h⟩ | ⟨-, h⟩ := ite_eq_iff.mp h
  · exact Or.inr (Or.inr (Or.inl ⟨hcode, h⟩))
  obtain ⟨hcode, h⟩ | ⟨-, h⟩ := ite_eq_iff.mp h
  · exact Or.inr (Or.inr (Or.inr ⟨hcode, h⟩))
  obtain ⟨-, h⟩ | ⟨-, h⟩ := ite_eq_iff.mp h
  · exact Or.inl (ops_resolve h)
  obtain ⟨-, h⟩ | ⟨-, h⟩ := ite_eq_iff.mp h
  · exact Or.inl (hsilent h fun _ => Stack.ops_makePair)
  obtain ⟨-, h⟩ | ⟨-, h⟩ := ite_eq_iff.mp h
  · exact Or.inl (hsilent h fun _ => Stack.ops_makePair)
  obtain ⟨-, h⟩ | ⟨-, h⟩ := ite_eq_iff.mp h
  · exact Or.inl (hsilent h fun _ => Stack.ops_makePair)
  obtain ⟨-, h⟩ | ⟨-, h⟩ := ite_eq_iff.mp h
  · exact Or.inl (hsilent h fun _ => Stack.ops_makeMap)
  obtain ⟨-, h⟩ | ⟨-, h⟩ := ite_eq_iff.mp h
  · exact Or.inl (hsilent h fun _ => Stack.ops_makeMap)
  obtain ⟨-, h⟩ | ⟨-, h⟩ := ite_eq_iff.mp h
  · exact Or.inl (hsilent h fun _ => Stack.ops_makeMap)
  obtain ⟨-, h⟩ | ⟨-, h⟩ := ite_eq_iff.mp h
  · exact Or.inl (hsilent h fun _ => Stack.ops_makeSeq)
  obtain ⟨-, h⟩ | ⟨-, h⟩ := ite_eq_iff.mp h
  · exact Or.inl (hsilent h fun _ => Stack.ops_makeVector)
  obtain ⟨-, h⟩ | ⟨-, h⟩ := ite_eq_iff.mp h
  · exact Or.inl (hsilent h fun _ => Stack.ops_makeSeq)
  obtain ⟨-, h⟩ | ⟨-, h⟩ := ite_eq_iff.mp h
  · exact Or.inl (hsilent h fun _ => Stack.ops_makePrg)
  obtain ⟨-, h⟩ | ⟨-, h⟩ := ite_eq_iff.mp h
  · exact Or.inl (hsilent h fun _ => Stack.ops_split)
  obtain ⟨-, h⟩ | ⟨-, h⟩ := ite_eq_iff.mp h
  · exact Or.inl (hsilent h fun _ => Stack.ops_assertType)
  obtain ⟨-, h⟩ | ⟨-, h⟩ := ite_eq_iff.mp h
  · exact Or.inl (hsilent h fun _ => Stack.ops_assertValue)
  obtain ⟨-, h⟩ | ⟨-, h⟩ := ite_eq_iff.mp h
  · obtain ⟨rfl, rfl⟩ := Prod.mk.inj (Except.ok.inj h)
    exact Or.inl ⟨rfl, by simp [Stack.esba, Stack.ops, Obj.ops, itemsOps]⟩
  obtain ⟨-, h⟩ | ⟨-, h⟩ := ite_eq_iff.mp h
  · exact Or.inl (hsilent h fun _ => Stack.ops_reba)
  obtain ⟨-, h⟩ | ⟨-, h⟩ := ite_eq_iff.mp h
  · exact Or.inl (hsilent h fun _ => Stack.ops_pull)
  obtain ⟨-, h⟩ | ⟨-, h⟩ := ite_eq_iff.mp h
  · exact Or.inl (hsilent h fun _ => Stack.ops_frm)
  obtain ⟨_, -, h⟩ := bind_eq_ok_iff.mp h
  obtain ⟨rfl, rfl⟩ := Prod.mk.inj (Except.ok.inj h)
  exact Or.inl ⟨rfl, Nat.le_refl _⟩

/-- The op codes that another party receives. -/
def effectOps : VmEffect → ℕ
  | .dispatch _ msg | .forward _ _ msg | .call _ msg => itemsOps msg

/-- The op codes that get onto the stack with an instruction. -/
def pushedOps : Obj → ℕ
  | .scalar (.op _) => 0
  | o => o.ops

theorem ops_invoke (h : invoke b env s = .ok (s', effects)) :
    s'.ops + (effects.map effectOps).sum ≤ s.ops := by
  obtain ⟨⟨⟨slot, msg⟩, t⟩, hstack, h⟩ := bind_eq_ok_iff.mp h
  have hle := Stack.ops_invoke hstack
  cases hchannel : env.channel with
  | none =>
    simp only [hchannel] at h
    obtain ⟨rfl, rfl⟩ := Prod.mk.inj (Except.ok.inj h)
    exact Nat.le_of_add_right_le hle
  | some channel =>
    simp only [hchannel] at h
    obtain ⟨rfl, rfl⟩ := Prod.mk.inj (Except.ok.inj h)
    simpa [effectOps] using hle

theorem ops_forward (h : forward b env s = .ok (s', effects)) :
    s'.ops + (effects.map effectOps).sum ≤ s.ops := by
  obtain ⟨⟨tag, t⟩, htag, h⟩ := bind_eq_ok_iff.mp h
  obtain ⟨⟨⟨slot, msg⟩, u⟩, hstack, h⟩ := bind_eq_ok_iff.mp h
  have hle := Stack.ops_invoke hstack
  -- popping the tag can only take an opcode off the stack
  have hpop : t.ops ≤ s.ops := by
    obtain ⟨_, -, htag⟩ := bind_eq_ok_iff.mp htag
    obtain ⟨_, -, htag⟩ := bind_eq_ok_iff.mp htag
    obtain ⟨v, hpop, htag⟩ := bind_eq_ok_iff.mp htag
    obtain ⟨-, rfl⟩ := Prod.mk.inj (Except.ok.inj htag)
    obtain ⟨o, rfl⟩ := Stack.pop_eq_ok hpop
    simp
  simp only at h
  split_ifs at h
  · cases hchannel : env.channel with
    | none =>
      simp only [hchannel] at h
      obtain ⟨rfl, rfl⟩ := Prod.mk.inj (Except.ok.inj h)
      exact (Nat.le_of_add_right_le hle).trans hpop
    | some channel =>
      simp only [hchannel] at h
      obtain ⟨rfl, rfl⟩ := Prod.mk.inj (Except.ok.inj h)
      simpa [effectOps] using hle.trans hpop
  · obtain ⟨rfl, rfl⟩ := Prod.mk.inj (Except.ok.inj h)
    simpa [effectOps] using hle.trans hpop

/-- `INVOKE_R` always calls a function, the first one where there is none with the number. -/
theorem call_of_invokeR (h : invokeR b env s = .ok (s', effects)) :
    ∃ id msg t, s.invokeR b = .ok ((id, msg), t) ∧ effects =
      [.call (if 0 < id.toNat ∧ id.toNat < env.functions then id.toNat else 0) msg] := by
  obtain ⟨⟨⟨id, msg⟩, t⟩, hstack, h⟩ := bind_eq_ok_iff.mp h
  have heffects := congrArg Prod.snd (Except.ok.inj h)
  refine ⟨id, msg, t, hstack, heffects.symm.trans ?_⟩
  simp only [callFunction]
  split_ifs
  · cases env.call id.toNat msg <;> rfl
  · cases env.call 0 msg <;> rfl

/-- Calls over a channel are no direct calls. -/
theorem no_call_of_invoke {number : ℕ} {msg : List Obj} (h : invoke b env s = .ok (s', effects)) :
    .call number msg ∉ effects := by
  obtain ⟨⟨⟨slot, msg'⟩, t⟩, -, h⟩ := bind_eq_ok_iff.mp h
  cases hchannel : env.channel <;> simp only [hchannel] at h <;>
    obtain ⟨-, rfl⟩ := Prod.mk.inj (Except.ok.inj h) <;> simp

theorem no_call_of_forward {number : ℕ} {msg : List Obj}
    (h : forward b env s = .ok (s', effects)) : .call number msg ∉ effects := by
  obtain ⟨⟨tag, t⟩, -, h⟩ := bind_eq_ok_iff.mp h
  obtain ⟨⟨⟨slot, msg'⟩, u⟩, -, h⟩ := bind_eq_ok_iff.mp h
  simp only at h
  split_ifs at h
  · cases hchannel : env.channel <;> simp only [hchannel] at h <;>
      obtain ⟨-, rfl⟩ := Prod.mk.inj (Except.ok.inj h) <;> simp
  · obtain ⟨-, rfl⟩ := Prod.mk.inj (Except.ok.inj h)
    simp

/-- Conservation: without a direct call, the op codes on the stack and those handed over
were on the stack before or came with the instruction. -/
theorem ops_exec {o : Obj} (h : exec b env s o = .ok (s', effects))
    (hcall : ∀ number msg, .call number msg ∉ effects) :
    s'.ops + (effects.map effectOps).sum ≤ s.ops + pushedOps o := by
  have hpush (ho : exec b env s o = .ok (s.push o, [])) (hops : pushedOps o = o.ops) :
      s'.ops + (effects.map effectOps).sum ≤ s.ops + pushedOps o := by
    obtain ⟨rfl, rfl⟩ := Prod.mk.inj (Except.ok.inj (ho.symm.trans h))
    simp [hops]
  cases o with
  | scalar v =>
    cases v with
    | op code =>
      rcases execOp_cases h with ⟨rfl, hle⟩ | ⟨-, hinvoke⟩ | ⟨-, hinvokeR⟩ | ⟨-, hforward⟩
      · exact hle
      · exact ops_invoke hinvoke
      · obtain ⟨id, msg, t, -, rfl⟩ := call_of_invokeR hinvokeR
        exact absurd (List.mem_singleton_self _) (hcall _ msg)
      · exact ops_forward hforward
    | _ => exact hpush rfl rfl
  | _ => exact hpush rfl rfl

/-- The same for a whole program. -/
theorem ops_run {os : List Obj} (h : Theory.Step.run (exec b env) s os = .ok (s', effects))
    (hcall : ∀ number msg, .call number msg ∉ effects) :
    s'.ops + (effects.map effectOps).sum ≤ s.ops + (os.map pushedOps).sum := by
  induction os generalizing s effects with
  | nil =>
    obtain ⟨rfl, rfl⟩ : s = s' ∧ effects = [] := by simpa using h
    exact Nat.le_refl _
  | cons o os ih =>
    obtain ⟨t, head, tail, hstep, hrun, heffects⟩ := Theory.Step.run_cons_eq_ok_iff.mp h
    simp only at hrun heffects
    subst heffects
    have hhead := ops_exec hstep fun number msg hmem =>
      hcall number msg (List.mem_append_left tail hmem)
    have htail := ih hrun fun number msg hmem =>
      hcall number msg (List.mem_append_right head hmem)
    simp only [List.map_append, List.sum_append, List.map_cons, List.sum_cons]
    omega

end Execution

end Vm

end Cyng
