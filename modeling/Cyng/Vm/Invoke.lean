import Cyng.Vm.OpCodes
import Cyng.Vm.RoundTrip

/-!
# Local and remote calls

A call is generated as a program: the arguments, their number, the name of the function and
the instruction `INVOKE`. The local program holds the arguments as they are. The remote one is
sent in its linear form, as the leaves and the build instructions that a tree is written as.

A remote call hands over what the local one does exactly when every argument survives a trip
through writer, parser and machine.
-/

namespace Cyng

open Theory

section Linear

mutual

/-- What a tree is written as: leaves and build instructions. -/
def Obj.linear : Obj → List Scalar
  | .scalar v => [v]
  | .pair key value => value.linear ++ [key.toScalar, .op key.kind.makePair]
  | .map kind entries =>
    linearPairs entries ++ [.uint64 (BitVec.ofNat 64 entries.length), .op kind.makeMap]
  | .seq kind items =>
    linearItems items ++ [.uint64 (BitVec.ofNat 64 items.length), .op kind.make]
  | .prg program =>
    program.map .buffer ++ [.uint64 (BitVec.ofNat 64 program.length), .op Op.makePrg]

def linearItems : List Obj → List Scalar
  | [] => []
  | item :: items => item.linear ++ linearItems items

def linearPairs : List (Key × Obj) → List Scalar
  | [] => []
  | (key, value) :: entries =>
    value.linear ++ [key.toScalar, .op key.kind.makePair] ++ linearPairs entries

end

/-- The bytes of leaves, one behind the other. -/
def frames (ip : IpText) (vs : List Scalar) : Bytes := vs.flatMap fun v => (v.write ip).bytes

theorem frames_cons (ip : IpText) (v : Scalar) (vs : List Scalar) :
    frames ip (v :: vs) = (v.write ip).bytes ++ frames ip vs := rfl

@[simp] theorem frames_append (ip : IpText) (vs ws : List Scalar) :
    frames ip (vs ++ ws) = frames ip vs ++ frames ip ws :=
  List.flatMap_append

theorem bytes_writeBuffers (ip : IpText) (program : List Bytes) :
    (writeBuffers ip program).bytes = frames ip (program.map .buffer) := by
  induction program with
  | nil => rfl
  | cons buf program ih => simp [writeBuffers, frames, ih, List.flatMap_map]

theorem bytes_writeMake (ip : IpText) (n : ℕ) (code : BitVec 16) :
    (writeMake ip n code).bytes = frames ip [.uint64 (BitVec.ofNat 64 n), .op code] := by
  simp [writeMake, frames]

mutual

/-- The bytes of a tree are those of its linear form. -/
theorem bytes_serializeBinary (ip : IpText) (o : Obj) :
    (serializeBinary ip o).bytes = frames ip o.linear := by
  match o with
  | .scalar v => simp [serializeBinary, Obj.linear, frames]
  | .pair key value =>
    simp [serializeBinary, Obj.linear, bytes_serializeBinary ip value, frames]
  | .map kind entries =>
    simp [serializeBinary, Obj.linear, bytes_writePairs ip entries, bytes_writeMake]
  | .seq kind items =>
    simp [serializeBinary, Obj.linear, bytes_writeItems ip items, bytes_writeMake]
  | .prg program =>
    simp [serializeBinary, Obj.linear, bytes_writeBuffers, bytes_writeMake]

theorem bytes_writeItems (ip : IpText) (items : List Obj) :
    (writeItems ip items).bytes = frames ip (linearItems items) := by
  match items with
  | [] => rfl
  | item :: items =>
    simp [writeItems, linearItems, bytes_serializeBinary ip item, bytes_writeItems ip items]

theorem bytes_writePairs (ip : IpText) (entries : List (Key × Obj)) :
    (writePairs ip entries).bytes = frames ip (linearPairs entries) := by
  match entries with
  | [] => rfl
  | (key, value) :: entries =>
    simp [writePairs, linearPairs, bytes_serializeBinary ip value, bytes_writePairs ip entries,
      frames]

end

theorem fits_pair {key : Key} (h : key.Fits) (code : BitVec 16) :
    ∀ v ∈ [key.toScalar, .op code], v.Fits := by
  have hkey : key.toScalar.Fits := by
    cases key with
    | name n => exact h
    | _ => trivial
  exact List.forall_mem_cons.mpr ⟨hkey, List.forall_mem_singleton.mpr trivial⟩

theorem fits_make (n : ℕ) (code : BitVec 16) :
    ∀ v ∈ [Scalar.uint64 (BitVec.ofNat 64 n), .op code], v.Fits :=
  List.forall_mem_cons.mpr ⟨trivial, List.forall_mem_singleton.mpr trivial⟩

mutual

/-- The linear form of a value that exists consists of leaves that exist. -/
theorem fits_linear (o : Obj) (h : o.WellFormed) : ∀ v ∈ o.linear, v.Fits := by
  match o with
  | .scalar v => exact List.forall_mem_singleton.mpr h
  | .pair key value =>
    exact List.forall_mem_append.mpr ⟨fits_linear value h.2, fits_pair h.1 _⟩
  | .map kind entries =>
    exact List.forall_mem_append.mpr ⟨fits_linearPairs kind entries h.2.2, fits_make _ _⟩
  | .seq kind items =>
    exact List.forall_mem_append.mpr ⟨fits_linearItems items h.2, fits_make _ _⟩
  | .prg program =>
    exact List.forall_mem_append.mpr ⟨List.forall_mem_map.mpr h.2, fits_make _ _⟩

theorem fits_linearItems (items : List Obj) (h : itemsWellFormed items) :
    ∀ v ∈ linearItems items, v.Fits := by
  match items with
  | [] => simp [linearItems]
  | item :: items =>
    exact List.forall_mem_append.mpr ⟨fits_linear item h.1, fits_linearItems items h.2⟩

theorem fits_linearPairs (kind : KeyKind) (entries : List (Key × Obj))
    (h : entriesWellFormed kind entries) : ∀ v ∈ linearPairs entries, v.Fits := by
  match entries with
  | [] => simp [linearPairs]
  | (key, value) :: entries =>
    obtain ⟨-, hkey, hvalue, hrest⟩ := h
    have hpair : ∀ v ∈ value.linear ++ [key.toScalar, .op key.kind.makePair], v.Fits :=
      List.forall_mem_append.mpr ⟨fits_linear value hvalue, fits_pair hkey _⟩
    exact List.forall_mem_append.mpr ⟨hpair, fits_linearPairs kind entries hrest⟩

end

mutual

/-- The leaves of a tree are in its linear form. Unlike the build instructions, none of them is
an op code if the tree contains none. -/
theorem leaves_of_linear {p : Scalar → Prop} (o : Obj) (h : ∀ v ∈ o.linear, p v)
    (hops : o.ops = 0) : o.Leaves fun v => p v ∧ ∀ code, v ≠ .op code := by
  match o with
  | .scalar v =>
    refine ⟨List.forall_mem_singleton.mp h, ?_⟩
    rintro code rfl
    cases hops
  | .pair key value =>
    exact leaves_of_linear value (List.forall_mem_append.mp h).1 hops
  | .map kind entries =>
    exact leaves_of_linearPairs entries (List.forall_mem_append.mp h).1 hops
  | .seq kind items =>
    exact leaves_of_linearItems items (List.forall_mem_append.mp h).1 hops
  | .prg program => trivial

theorem leaves_of_linearItems {p : Scalar → Prop} (items : List Obj)
    (h : ∀ v ∈ linearItems items, p v) (hops : itemsOps items = 0) :
    itemsLeaves (fun v => p v ∧ ∀ code, v ≠ .op code) items := by
  match items with
  | [] => trivial
  | item :: items =>
    obtain ⟨hitem, hitems⟩ := List.forall_mem_append.mp h
    obtain ⟨hone, hmany⟩ := Nat.add_eq_zero_iff.mp hops
    exact ⟨leaves_of_linear item hitem hone, leaves_of_linearItems items hitems hmany⟩

theorem leaves_of_linearPairs {p : Scalar → Prop} (entries : List (Key × Obj))
    (h : ∀ v ∈ linearPairs entries, p v) (hops : entriesOps entries = 0) :
    entriesLeaves (fun v => p v ∧ ∀ code, v ≠ .op code) entries := by
  match entries with
  | [] => trivial
  | (key, value) :: entries =>
    obtain ⟨hpair, hrest⟩ := List.forall_mem_append.mp h
    obtain ⟨hone, hmany⟩ := Nat.add_eq_zero_iff.mp hops
    exact ⟨leaves_of_linear value (List.forall_mem_append.mp hpair).1 hone,
      leaves_of_linearPairs entries hrest hmany⟩

end

end Linear

namespace Vm

section Leaves

variable {b : Build} {env : VmEnv} {ip : IpText} {s s' : Stack} {effects : List VmEffect}

/-- What a leaf does when it has been read. -/
theorem run_events {events : List (ParserEvent Scalar)} {t : BitVec 16} {payload : Bytes}
    {v : Scalar} (hevents : Parser.deliveries events = [(t, payload, v)]) :
    (onEvent b env).run s events = exec b env s (.scalar v) := by
  cases hexec : exec b env s (.scalar v) with
  | error e => exact run_onEvent_error hevents hexec
  | ok r => exact run_onEvent hevents hexec

theorem payload_ne_nil {v : Scalar} (h : ¬v.Decodable b) : v.payload ip ≠ [] := by
  refine List.ne_nil_of_length_pos ?_
  rw [Scalar.length_payload]
  cases v with
  | color16 color => exact Nat.succ_pos 7
  | raw literal code => exact Nat.succ_pos _
  | _ => exact absurd trivial h

/-- When the bytes of leaves are read, all of them can be decoded, and the machine executes what
comes out. -/
theorem run_frames_eq_ok {vs : List Scalar} (hfits : ∀ v ∈ vs, v.Fits) {p : Parser}
    (hp : p.Idle) {p' : Parser}
    (h : (receive b env ip).run (p, s) (frames ip vs) = .ok ((p', s'), effects)) :
    (∀ v ∈ vs, v.Decodable b) ∧
      Step.run (exec b env) s (vs.map fun v => .scalar v.received) = .ok (s', effects) := by
  induction vs generalizing p s effects with
  | nil =>
    obtain ⟨⟨-, rfl⟩, rfl⟩ : (p = p' ∧ s = s') ∧ [] = effects := by simpa [frames] using h
    exact ⟨by simp, rfl⟩
  | cons v vs ih =>
    obtain ⟨hv, hvs⟩ := List.forall_mem_cons.mp hfits
    rw [frames_cons] at h
    obtain ⟨⟨q, t⟩, head, tail, hhead, htail, heffects⟩ := Step.run_append_eq_ok_iff.mp h
    simp only at htail heffects
    obtain ⟨events, hparser, hmachine⟩ := Step.run_pipe_eq_ok_iff.mp hhead
    have hlen : (v.payload ip).length ≤ maxSize :=
      (Scalar.length_payload ip v).trans_le (Scalar.announced_le_maxSize ip hv)
    have hbytes : (v.write ip).bytes = (writeBinary 2 v.typeCode.code).bytes ++
        (serializeLength (v.payload ip).length).bytes ++ v.payload ip := by
      rw [Scalar.length_payload]
      rfl
    rw [hbytes] at hparser
    -- the frame of the first value is read first, and it has to be decoded
    by_cases hdecodable : v.Decodable b
    · obtain ⟨q', events', hframe, hq', hevents⟩ := Parser.run_frame b
        (fun type buffer => deserialize b ip buffer type) hp hlen
        (deserialize_payload b ip hdecodable)
      obtain ⟨rfl, rfl⟩ := Prod.mk.inj (Except.ok.inj (hframe.symm.trans hparser))
      rw [run_events hevents] at hmachine
      obtain ⟨hrest, hrun⟩ := ih hvs hq' htail
      refine ⟨List.forall_mem_cons.mpr ⟨hdecodable, hrest⟩, ?_⟩
      rw [List.map_cons, heffects]
      exact Step.run_cons_ok hmachine hrun
    · cases hdecode : deserialize b ip (v.payload ip) v.typeCode.code with
      | ok w => exact absurd hdecode (deserialize_payload_ne_ok b ip hdecodable w)
      | error e =>
        have hframe := @Parser.run_frame_error Scalar b
          (fun type buffer => deserialize b ip buffer type) p ⟨.null⟩ _ _ e hp
          (payload_ne_nil hdecodable) hlen hdecode
        rw [hframe] at hparser
        cases hparser

/-- The other way round, leaves that can be decoded are read and executed. -/
theorem run_frames_ok {vs : List Scalar} (hfits : ∀ v ∈ vs, v.Fits)
    (hdecodable : ∀ v ∈ vs, v.Decodable b) {p : Parser} (hp : p.Idle)
    (h : Step.run (exec b env) s (vs.map fun v => .scalar v.received) = .ok (s', effects)) :
    ∃ p' : Parser, p'.Idle ∧
      (receive b env ip).run (p, s) (frames ip vs) = .ok ((p', s'), effects) := by
  induction vs generalizing p s effects with
  | nil =>
    obtain ⟨rfl, rfl⟩ : s = s' ∧ [] = effects := by simpa using h
    exact ⟨p, hp, rfl⟩
  | cons v vs ih =>
    obtain ⟨hv, hvs⟩ := List.forall_mem_cons.mp hfits
    obtain ⟨hone, hmany⟩ := List.forall_mem_cons.mp hdecodable
    obtain ⟨t, head, tail, hstep, hrun, heffects⟩ := Step.run_cons_eq_ok_iff.mp h
    simp only at hrun heffects
    have hlen : (v.payload ip).length ≤ maxSize :=
      (Scalar.length_payload ip v).trans_le (Scalar.announced_le_maxSize ip hv)
    obtain ⟨q, events, hframe, hq, hevents⟩ := Parser.run_frame b
      (fun type buffer => deserialize b ip buffer type) hp hlen (deserialize_payload b ip hone)
    rw [Scalar.length_payload] at hframe
    obtain ⟨p', hp', hrest⟩ := ih hvs hmany hq hrun
    refine ⟨p', hp', ?_⟩
    rw [frames_cons, heffects]
    exact Step.run_append_ok (Step.run_pipe_ok hframe ((run_events hevents).trans hstep)) hrest

end Leaves

section Calls

variable (b : Build) (env : VmEnv) (ip : IpText)

/-- `generate_invoke` -/
def generateInvoke (name : Bytes) (args : List Obj) : List Obj :=
  args ++ [.size args.length, .scalar (.string name), .op Op.invoke]

/-- `convert_to_deque` -/
def convertToDeque (vals : List Obj) : List Bytes :=
  vals.map fun obj => (serializeBinary ip obj).bytes

/-- `serialize_invoke` -/
def serializeInvoke (name : Bytes) (args : List Obj) : List Bytes :=
  convertToDeque ip (args ++ [.size args.length, .scalar (.string name), .op Op.invoke])

/-- Both ways of calling a function dispatch it once, with the arguments as they were given, and
leave the stack as it was. -/
def Agrees (s : Stack) (name : Bytes) (args : List Obj) : Prop :=
  (exec b env).run s (generateInvoke name args) = .ok (s, [.dispatch name args]) ∧
    ∃ p : Parser, (Step.runChunks (receive b env ip)).run (Parser.initial, s)
      (serializeInvoke ip name args) = .ok ((p, s), [.dispatch name args])

/-- An object that comes out of a trip as it went in: without op codes, with leaves that can be
decoded, and its own mirror image. -/
def Undistorted (o : Obj) : Prop :=
  o.Leaves (fun v => v.Decodable b ∧ ∀ code, v ≠ .op code) ∧ o.mirror Scalar.received = o

variable {b env ip} {s : Stack} {name : Bytes} {args : List Obj}

theorem bytes_arguments (args : List Obj) :
    (args.map fun obj => (serializeBinary ip obj).bytes).flatten =
      frames ip (linearItems args) := by
  induction args with
  | nil => rfl
  | cons o args ih =>
    rw [List.map_cons, List.flatten_cons, ih, bytes_serializeBinary, linearItems, frames_append]

theorem bytes_serializeInvoke : (serializeInvoke ip name args).flatten =
    frames ip (linearItems args ++
      [.uint64 (BitVec.ofNat 64 args.length), .string name, .op Op.invoke]) := by
  rw [serializeInvoke, convertToDeque, List.map_append, List.flatten_append, bytes_arguments,
    frames_append]
  simp [serializeBinary, frames]

theorem exec_of_ne_op {o : Obj} (h : ∀ code, o ≠ .op code) :
    exec b env s o = .ok (s.push o, []) := by
  cases o with
  | scalar v =>
    cases v with
    | op code => exact absurd rfl (h code)
    | _ => rfl
  | _ => rfl

/-- Objects that are no op codes are pushed. -/
theorem moves_pushAll (h : ∀ o ∈ args, ∀ code, o ≠ .op code) :
    Step.Moves (exec b env) s args (s.pushAll args) := by
  induction args generalizing s with
  | nil =>
    rw [Stack.pushAll_nil]
    exact Step.Moves.nil
  | cons o args ih =>
    obtain ⟨ho, hargs⟩ := List.forall_mem_cons.mp h
    rw [Stack.pushAll_cons]
    exact Step.Moves.cons (exec_of_ne_op ho) (ih hargs)

/-- The instruction takes name, count and arguments off the stack. The tuple that it makes of
them is in reversed order, so it turns the arguments round. -/
theorem invoke_pushAll (hcount : args.length < 2 ^ 64) :
    (((s.pushAll args).push (.size args.length)).push (.scalar (.string name))).invoke b =
      .ok ((name, args), s) := by
  have htuple : Stack.makeTuple b ((s.pushAll args).push (.size args.length)) =
      .ok (s.push (.seq .tuple args.reverse)) := Stack.makeSeq_pushAll b hcount
  rw [Stack.invoke, Build.check_of (by simp), ok_bind, Stack.popValue_push b _ _ (x := name) rfl,
    ok_bind]
  simp only [htuple, ok_bind]
  rw [Stack.popValue_push b _ _ (x := args.reverse) rfl, ok_bind, List.reverse_reverse]

/-- The end of a call, when the arguments are on the stack. -/
theorem run_call (b : Build) (env : VmEnv) (s : Stack) (name : Bytes)
    (hcount : args.length < 2 ^ 64) :
    (exec b env).run (s.pushAll args)
        [.size args.length, .scalar (.string name), .op Op.invoke] =
      .ok (s, (env.channel.map fun _ => VmEffect.dispatch name args).toList) := by
  have hinvoke : exec b env
      (((s.pushAll args).push (.size args.length)).push (.scalar (.string name)))
      (.op Op.invoke) = .ok (s, (env.channel.map fun _ => VmEffect.dispatch name args).toList) := by
    have hexec (t : Stack) : exec b env t (.op Op.invoke) = invoke b env t := rfl
    rw [hexec, invoke, invoke_pushAll hcount, ok_bind]
    cases env.channel <;> rfl
  exact Step.run_cons_ok (exec_of_ne_op (by simp))
    (Step.run_cons_ok (exec_of_ne_op (by simp)) (Step.run_singleton hinvoke))

/-- The local program, with arguments that are no op codes. -/
theorem run_generateInvoke (hcount : args.length < 2 ^ 64)
    (h : ∀ o ∈ args, ∀ code, o ≠ .op code) :
    (exec b env).run s (generateInvoke name args) =
      .ok (s, (env.channel.map fun _ => VmEffect.dispatch name args).toList) :=
  ((moves_pushAll h).run_append).trans (run_call b env s name hcount)

theorem carried_of_decodable {v : Scalar} (h : v.Decodable b ∧ ∀ code, v ≠ .op code) :
    Carried b ip Scalar.received v := by
  refine ⟨deserialize_payload b ip h.1, fun code => ?_⟩
  cases v with
  | op code' => exact absurd rfl (h.2 code')
  | errorCode ec =>
    simp only [Scalar.received]
    split_ifs <;> simp
  | _ => simp [Scalar.received]

/-- The remote program, with arguments that can travel: what arrives are their mirror images. -/
theorem run_serializeInvoke (b : Build) (env : VmEnv) (ip : IpText) (s : Stack)
    (hname : name.length ≤ stringMaxSize)
    (hcount : args.length < 2 ^ 64) (hwf : itemsWellFormed args)
    (hleaf : itemsLeaves (fun v => v.Decodable b ∧ ∀ code, v ≠ .op code) args)
    (hpass : ∀ o ∈ args.head?, Passes b s o) :
    ∃ p : Parser, (receive b env ip).run (Parser.initial, s)
        (serializeInvoke ip name args).flatten =
      .ok ((p, s), (env.channel.map fun _ =>
        VmEffect.dispatch name (mirrorItems Scalar.received args)).toList) := by
  have hcarried : itemsLeaves (Carried b ip Scalar.received) args :=
    itemsLeaves_imp (fun _ => carried_of_decodable) args hleaf
  obtain ⟨p, hp, hitems⟩ := delivers_items args s hwf hcarried hpass Parser.initial ⟨rfl, rfl⟩
  have hlen : (mirrorItems Scalar.received args).length = args.length := length_mirrorItems _ args
  have hcall := run_call b env s name (hlen.trans_lt hcount)
  rw [hlen] at hcall
  -- behind the arguments stand the count, the slot and the opcode
  have hfits : ∀ v ∈ [Scalar.uint64 (BitVec.ofNat 64 args.length), .string name, .op Op.invoke],
      v.Fits := by
    refine List.forall_mem_cons.mpr ⟨trivial, List.forall_mem_cons.mpr ⟨hname, ?_⟩⟩
    exact List.forall_mem_singleton.mpr trivial
  have hdecodable :
      ∀ v ∈ [Scalar.uint64 (BitVec.ofNat 64 args.length), .string name, .op Op.invoke],
        v.Decodable b := by
    refine List.forall_mem_cons.mpr ⟨trivial, List.forall_mem_cons.mpr ⟨trivial, ?_⟩⟩
    exact List.forall_mem_singleton.mpr trivial
  obtain ⟨p', -, htail⟩ := run_frames_ok hfits hdecodable hp hcall
  refine ⟨p', ?_⟩
  rw [bytes_serializeInvoke, frames_append, ← bytes_writeItems]
  exact Step.run_append_ok hitems htail

/-- Op codes do not come out of the bytes of a tree: the parser hands them over one by one, and
the machine executes them. -/
theorem ops_of_frames {vs : List Scalar} {msg : List Obj}
    (h : (exec b env).run s (vs.map fun v => .scalar v.received) =
      .ok (s, [.dispatch name msg])) : itemsOps msg = 0 := by
  have hpushed : ((vs.map fun v => Obj.scalar v.received).map pushedOps).sum = 0 := by
    have hleaf (v : Scalar) : pushedOps (.scalar v) = 0 := by cases v <;> rfl
    simp [Function.comp_def, hleaf]
  have hops := ops_run h (by simp)
  rw [hpushed] at hops
  simpa [effectOps] using hops

/-- Local and remote calls agree exactly when the machine is connected, no argument is distorted,
and the first one does not start, on an empty stack, with an attribute map without entries. -/
theorem agrees_iff (b : Build) (env : VmEnv) (ip : IpText) (s : Stack) {name : Bytes}
    (hname : name.length ≤ stringMaxSize) {args : List Object} (hcount : args.length < 2 ^ 64) :
    Agrees b env ip s name (args.map Object.tree) ↔
      env.channel ≠ none ∧ (∀ o ∈ args, Undistorted b o.tree) ∧
        (b.enabled attrMapText = true → s.items = [] →
          ∀ o ∈ args.head?, startsWithEmptyAttrMap o.tree = false) := by
  have hcount' : (args.map Object.tree).length < 2 ^ 64 := by rwa [List.length_map]
  have hwf : itemsWellFormed (args.map Object.tree) :=
    itemsWellFormed_iff.mpr (List.forall_mem_map.mpr fun o _ => o.wellFormed)
  have hnoOp (h : itemsLeaves (fun v => v.Decodable b ∧ ∀ code, v ≠ .op code)
      (args.map Object.tree)) : ∀ o ∈ args.map Object.tree, ∀ code, o ≠ .op code := by
    rintro o ho code rfl
    exact (itemsLeaves_iff.mp h _ ho).2 code rfl
  have hfits : ∀ v ∈ linearItems (args.map Object.tree) ++
      [.uint64 (BitVec.ofNat 64 (args.map Object.tree).length), .string name, .op Op.invoke],
      v.Fits := by
    refine List.forall_mem_append.mpr ⟨fits_linearItems _ hwf, ?_⟩
    refine List.forall_mem_cons.mpr ⟨trivial, List.forall_mem_cons.mpr ⟨hname, ?_⟩⟩
    exact List.forall_mem_singleton.mpr trivial
  have hmirrors : mirrorItems Scalar.received (args.map Object.tree) = args.map Object.tree ↔
      ∀ o ∈ args, o.tree.mirror Scalar.received = o.tree := by
    rw [mirrorItems_eq_map, List.map_map, List.map_inj_left]
    rfl
  constructor
  · rintro ⟨hlocal, p, hremote⟩
    rw [Step.run_runChunks_eq_ok_iff] at hremote
    have hframes := hremote
    rw [bytes_serializeInvoke] at hframes
    obtain ⟨hdecodable, hexec⟩ := run_frames_eq_ok hfits ⟨rfl, rfl⟩ hframes
    have hleaf := leaves_of_linearItems _ (List.forall_mem_append.mp hdecodable).1
      (ops_of_frames hexec)
    have hchannel : env.channel ≠ none := by
      intro hnone
      rw [run_generateInvoke hcount' (hnoOp hleaf), hnone] at hlocal
      simp at hlocal
    have hpass : ∀ o ∈ (args.map Object.tree).head?, Passes b s o := by
      intro o ho hb hs
      -- the remote machine would fail on the first argument
      by_contra hstart
      obtain ⟨rest, hrest⟩ := List.head?_eq_some_iff.mp ho
      have hfails : Fails b env ip (writeItems ip (o :: rest)).bytes s :=
        (fails_obj o s hb hs (by simpa using hstart)).append _
      obtain ⟨e, he⟩ := hfails Parser.initial ⟨rfl, rfl⟩
      rw [bytes_serializeInvoke, frames_append, ← bytes_writeItems, hrest,
        Step.run_append_of_error he] at hremote
      cases hremote
    obtain ⟨p', hmirror⟩ := run_serializeInvoke b env ip s hname hcount' hwf hleaf hpass
    rw [hmirror] at hremote
    obtain ⟨channel, hsome⟩ := Option.ne_none_iff_exists'.mp hchannel
    -- the same request is made, so the arguments are the same
    have hitems : mirrorItems Scalar.received (args.map Object.tree) = args.map Object.tree := by
      simpa [hsome] using (Prod.mk.inj (Except.ok.inj hremote)).2
    refine ⟨hchannel, fun o ho => ⟨?_, hmirrors.mp hitems o ho⟩, fun hb hs o ho => ?_⟩
    · exact itemsLeaves_iff.mp hleaf _ (List.mem_map_of_mem ho)
    · exact hpass o.tree (by simp [Option.mem_def.mp ho]) hb hs
  · rintro ⟨hchannel, hargs, hpass⟩
    have hleaf : itemsLeaves (fun v => v.Decodable b ∧ ∀ code, v ≠ .op code)
        (args.map Object.tree) :=
      itemsLeaves_iff.mpr (List.forall_mem_map.mpr fun o ho => (hargs o ho).1)
    have hitems := hmirrors.mpr fun o ho => (hargs o ho).2
    have hpass' : ∀ o ∈ (args.map Object.tree).head?, Passes b s o := by
      intro o ho hb hs
      obtain ⟨a, ha, rfl⟩ : ∃ a ∈ args.head?, a.tree = o := by simpa using ho
      exact hpass hb hs a ha
    obtain ⟨channel, hsome⟩ := Option.ne_none_iff_exists'.mp hchannel
    obtain ⟨p, hremote⟩ := run_serializeInvoke b env ip s hname hcount' hwf hleaf hpass'
    refine ⟨?_, p, ?_⟩
    · rw [run_generateInvoke hcount' (hnoOp hleaf), hsome]
      rfl
    · rw [Step.run_runChunks_eq_ok_iff, hremote, hitems, hsome]
      rfl

/-- A machine with a channel. -/
def connected : VmEnv := { bare with channel := some ⟨Octets.zero 16, fun _ => 0⟩ }

theorem agrees_iff_twoLeaves :
    Agrees .debug connected .tagged ⟨[], 0⟩ [0x66] ([twoLeaves].map Object.tree) ↔
      connected.channel ≠ none ∧ (∀ o ∈ [twoLeaves], Undistorted .debug o.tree) ∧
        (Build.debug.enabled attrMapText = true → ([] : List Obj) = [] →
          ∀ o ∈ [twoLeaves].head?, startsWithEmptyAttrMap o.tree = false) :=
  agrees_iff .debug connected .tagged ⟨[], 0⟩
    (by decide : ([0x66] : Bytes).length ≤ stringMaxSize)
    (by decide : [twoLeaves].length < 2 ^ 64)

/-- A vector with two leaves is handed over in the other order by the remote call. -/
theorem not_agrees : ¬∀ (b : Build) (env : VmEnv) (ip : IpText) (s : Stack) (name : Bytes)
    (args : List Object), env.channel ≠ none → name.length ≤ stringMaxSize →
    args.length < 2 ^ 64 → Agrees b env ip s name (args.map Object.tree) := by
  intro h
  obtain ⟨-, p, hself⟩ := h .release connected .tagged ⟨[], 0⟩ [0x66] [twoLeaves]
    (by simp [connected]) (by decide) (by decide)
  have hwf : itemsWellFormed ([twoLeaves].map Object.tree) := ⟨twoLeaves.wellFormed, trivial⟩
  have hleaf : itemsLeaves (fun v => v.Decodable .release ∧ ∀ code, v ≠ .op code)
      ([twoLeaves].map Object.tree) :=
    ⟨⟨⟨trivial, by simp⟩, ⟨trivial, by simp⟩, trivial⟩, trivial⟩
  obtain ⟨p', hmirror⟩ := run_serializeInvoke .release connected .tagged ⟨[], 0⟩
    (by decide : ([0x66] : Bytes).length ≤ stringMaxSize) (by decide) hwf hleaf
    fun _ _ hb => by cases hb
  rw [Step.run_runChunks_eq_ok_iff, hmirror] at hself
  simp [connected, twoLeaves, Obj.vector, mirrorItems, Obj.mirror, Scalar.received] at hself

end Calls

end Vm

end Cyng
