import Cyng.Io.Decode

/-!
# The scalar codec

What the decoder of a type makes of the payload that the writer of the type has
produced. For all but a few types it is the value itself: the bytes of the four words
of a `mac64` are written in the order of the host and read in network order, an error
code of a foreign category becomes the default error code, and the third channel of a
16 bit color is looked for behind the end of the payload.
-/

namespace Cyng

open Theory

/-- The bytes of a 16 bit word in reversed order. -/
def swapBytes (w : BitVec 16) : BitVec 16 :=
  BitVec.ofNat 16 (w.toNat % 256 * 256 + w.toNat / 256)

theorem toNat_swapBytes (w : BitVec 16) :
    (swapBytes w).toNat = w.toNat % 256 * 256 + w.toNat / 256 := by
  have hw : w.toNat < 2 ^ 16 := w.isLt
  rw [swapBytes, BitVec.toNat_ofNat]
  exact Nat.mod_eq_of_lt (by omega)

@[simp] theorem swapBytes_swapBytes (w : BitVec 16) : swapBytes (swapBytes w) = w := by
  have hw : w.toNat < 2 ^ 16 := w.isLt
  apply BitVec.eq_of_toNat_eq
  rw [toNat_swapBytes, toNat_swapBytes]
  omega

/-- All words of a `mac64` with their bytes reversed. -/
def Mac64.swapped (a : Mac64) : Mac64 :=
  ⟨swapBytes a.word1, swapBytes a.word2, swapBytes a.word3, swapBytes a.word4⟩

@[simp] theorem Mac64.swapped_swapped (a : Mac64) : a.swapped.swapped = a := by
  simp [Mac64.swapped]

/-- The value that arrives at the other end. -/
def Scalar.received : Scalar → Scalar
  | mac64 address => mac64 address.swapped
  | errorCode ec =>
    if ec.category = ErrorCode.generic ∨ ec.category = ErrorCode.system then errorCode ec
    else errorCode ErrorCode.success
  | v => v

/-- The text of the assertion that refuses a raw object without a literal. -/
def rawAssertion : String := "buffer_.size() > sizeof(std::uint16_t)"

/-- The values for which the decoder gets past its assertions and reads no byte that is
not there. -/
def Scalar.Decodable (b : Build) : Scalar → Prop
  | color16 _ => False
  | raw literal _ => b.enabled rawAssertion = true → literal ≠ []
  | _ => True

section Numbers

theorem toNumeric_append {n : ℕ} {bs rest : Bytes} (h : bs.length = n) :
    toNumeric n (bs ++ rest) = BitVec.ofNat (8 * n) (ofBE bs) := by
  rw [toNumeric, List.take_left' h]

/-- Whatever follows a number in the payload, the number itself is read back. -/
@[simp] theorem toNumeric_toBuffer_append {n : ℕ} (v : BitVec (8 * n)) (rest : Bytes) :
    toNumeric n (toBuffer n v ++ rest) = v := by
  rw [toNumeric_append (length_toBuffer n v), toBuffer, ofNat_ofBE_toBE]

@[simp] theorem toNumeric_toBuffer {n : ℕ} (v : BitVec (8 * n)) :
    toNumeric n (toBuffer n v) = v := by
  simpa using toNumeric_toBuffer_append v []

/-- A word in host order is read with its bytes reversed. -/
theorem toNumeric_writeWord (w : BitVec 16) (rest : Bytes) :
    toNumeric 2 ((writeWord w).bytes ++ rest) = swapBytes w := by
  have hw : w.toNat < 2 ^ 16 := w.isLt
  rw [toNumeric_append (Scalar.length_writeWord w)]
  simp only [writeWord, Written.bytes_of, toLE, ofBE, ofLE, List.reverse_cons, List.reverse_nil,
    List.nil_append, List.cons_append, UInt8.toNat_ofNat', swapBytes]
  congr 1
  omega

theorem drop_toBuffer_append {n k : ℕ} (v : BitVec (8 * n)) (rest : Bytes) (h : n ≤ k) :
    (toBuffer n v ++ rest).drop k = rest.drop (k - n) := by
  simp [List.drop_append, h]

theorem drop_writeWord_append {k : ℕ} (w : BitVec 16) (rest : Bytes) (h : 2 ≤ k) :
    ((writeWord w).bytes ++ rest).drop k = rest.drop (k - 2) := by
  simp [List.drop_append, h]

end Numbers

section Members

theorem makeMac64_payload (a : Mac64) (ip : IpText) :
    makeMac64 ((Scalar.mac64 a).payload ip) = a.swapped := by
  simp [makeMac64, Scalar.payload, Scalar.value, drop_writeWord_append, toNumeric_writeWord,
    Mac64.swapped]
  exact toNumeric_writeWord a.word4 []

theorem makeColor8_payload (c : Color 8) (ip : IpText) :
    makeColor8 ((Scalar.color8 c).payload ip) = c := by
  simp [makeColor8, Scalar.payload, Scalar.value, writeBinary, drop_toBuffer_append]

theorem makePid_payload (id : BitVec 32) (ip : IpText) :
    makePid ((Scalar.pid id).payload ip) = id := by
  have hbits : (id.signExtend 64).setWidth 32 = id := by
    ext i hi
    rw [BitVec.getElem_setWidth, BitVec.getLsbD_signExtend, BitVec.getLsbD_eq_getElem hi]
    simp [hi, show i < 64 by omega]
  simpa [makePid, Scalar.payload, Scalar.value, writeBinary] using hbits

theorem makeObis_append (pre : Bytes) (o : Obis) (rest : Bytes) :
    makeObis (pre ++ (o.val ++ rest)) pre.length = .ok o := by
  obtain ⟨bytes, h⟩ := o
  match bytes, h with
  | [a, b, c, d, e, f], _ =>
    have hlen : 6 ≤ (pre ++ ([a, b, c, d, e, f] ++ rest)).length + pre.length := by
      simp only [List.length_append, List.length_cons]
      omega
    rw [makeObis, if_pos hlen]
    simp [byteAt]

/-- The obis codes of a path are found one behind the other. -/
theorem mapM_makeObis (done path : List Obis) :
    (List.range' done.length path.length).mapM (fun idx =>
      makeObis ((done ++ path).flatMap Subtype.val) (idx * 6)) = .ok path := by
  induction path generalizing done with
  | nil => rfl
  | cons o path ih =>
    have hpre : (done.flatMap Subtype.val).length = done.length * 6 :=
      Scalar.length_flatMap_octets done
    have hhead : makeObis ((done ++ o :: path).flatMap Subtype.val) (done.length * 6) = .ok o := by
      rw [List.flatMap_append, List.flatMap_cons, ← hpre]
      exact makeObis_append _ o _
    have htail := ih (done ++ [o])
    rw [List.append_assoc, List.singleton_append, List.length_append,
      List.length_singleton] at htail
    rw [List.length_cons, List.range'_succ, List.mapM_cons, hhead, ok_bind, htail]
    rfl

theorem makeObisPath_payload (b : Build) (path : List Obis) (ip : IpText) :
    makeObisPath b ((Scalar.obisPath path).payload ip) = .ok path := by
  have hlen : (path.flatMap Subtype.val).length = path.length * 6 :=
    Scalar.length_flatMap_octets path
  have h := mapM_makeObis [] path
  rw [List.nil_append, List.length_nil, ← List.range_eq_range'] at h
  rw [makeObisPath, Scalar.payload, Scalar.value, Written.bytes_of,
    Build.check_of (by rw [hlen]; exact Nat.mul_mod_left _ _), hlen,
    Nat.mul_div_cancel _ (by decide)]
  exact h

theorem makeEc_payload (ec : ErrorCode) (ip : IpText) :
    (makeEc ((Scalar.errorCode ec).payload ip)).map Scalar.errorCode =
      .ok (Scalar.errorCode ec).received := by
  have hcat : makeString ((Scalar.errorCode ec).payload ip) 4 = .ok ec.category := by
    simp [makeString, Scalar.payload, Scalar.value, writeBinary]
  have hcode : toNumeric 4 ((Scalar.errorCode ec).payload ip) = ec.value :=
    toNumeric_toBuffer_append (n := 4) ec.value ec.category
  rw [makeEc, hcat, hcode]
  have hne : ErrorCode.system ≠ ErrorCode.generic := by decide
  obtain ⟨value, category⟩ := ec
  by_cases hg : category = ErrorCode.generic
  · simp [Scalar.received, Except.map, hg]
  · by_cases hs : category = ErrorCode.system
    · simp [Scalar.received, Except.map, hs, hne]
    · simp [Scalar.received, Except.map, hg, hs]

/-- The third channel of a 16 bit color lies behind the end of its payload. -/
theorem makeColor16_payload_ne_ok (b : Build) (c d : Color 16) (ip : IpText) :
    makeColor16 b ((Scalar.color16 c).payload ip) ≠ .ok d := by
  have hlen : ((Scalar.color16 c).payload ip).length = 8 := Scalar.length_payload ip _
  have hpast : ∀ v, toNumericAt b 2 ((Scalar.color16 c).payload ip) (4 * 2) ≠ .ok v := by
    intro v h
    obtain ⟨_, _, h⟩ := bind_eq_ok_iff.mp h
    simp [hlen] at h
  intro h
  rw [makeColor16, if_pos hlen.ge] at h
  obtain ⟨green, _, h⟩ := bind_eq_ok_iff.mp h
  obtain ⟨blue, hblue, _⟩ := bind_eq_ok_iff.mp h
  exact hpast blue hblue

end Members

section Codec

variable (b : Build) (ip : IpText)

theorem sized_of {buffer : Bytes} {n : ℕ} (h : buffer.length = n) (text : String)
    (v : Scalar) : sized b buffer text n v = .ok v := by
  rw [sized, Build.check_of h, ok_bind]

theorem deserializeFloat_payload (ty : FloatType) (bits : BitVec (8 * ty.size)) :
    deserializeFloat b ((Scalar.float ty bits).payload ip) ty = .ok (.float ty bits) := by
  rw [deserializeFloat, sized_of b (n := ty.size) (Scalar.length_payload ip (.float ty bits))]
  exact congrArg (fun x => Except.ok (Scalar.float ty x)) (toNumeric_toBuffer bits)

theorem deserializeInt_payload (ty : IntType) (v : BitVec (8 * ty.size)) :
    deserializeInt b ((Scalar.int ty v).payload ip) ty = .ok (.int ty v) := by
  rw [deserializeInt, sized_of b (n := ty.size) (Scalar.length_payload ip (.int ty v))]
  exact congrArg (fun x => Except.ok (Scalar.int ty x)) (toNumeric_toBuffer v)

theorem makeDuration_payload (unit : DurationUnit) (ticks : BitVec 64) :
    makeDuration ((Scalar.duration unit ticks).payload ip) unit = .duration unit ticks :=
  congrArg (Scalar.duration unit) (toNumeric_toBuffer (n := 8) ticks)

theorem makeDigest_payload (text : String) (ty : DigestType) (d : Octets ty.size) :
    makeDigest b ((Scalar.digest ty d).payload ip) text ty = .ok (.digest ty d) := by
  rw [makeDigest, sized_of b (n := ty.size) (Scalar.length_payload ip (.digest ty d))]
  exact congrArg (fun x => Except.ok (Scalar.digest ty x)) (Octets.ofBuffer_val d)

theorem makeAesKey_payload (text : String) (ty : AesType) (key : Octets ty.bytes) :
    makeAesKey b ((Scalar.aesKey ty key).payload ip) text ty = .ok (.aesKey ty key) := by
  rw [makeAesKey, sized_of b (n := ty.bytes) (Scalar.length_payload ip (.aesKey ty key))]
  exact congrArg (fun x => Except.ok (Scalar.aesKey ty x)) (Octets.ofBuffer_val key)

theorem makeEndpoint_payload (protocol : Protocol) (address : Address) (port : BitVec 16) :
    makeEndpoint ip protocol ((Scalar.endpoint protocol address port).payload ip) =
      .ok (.endpoint protocol address port) := by
  have htext : makeString ((Scalar.endpoint protocol address port).payload ip) 2 =
      .ok (ip.toString address) := by
    simp [makeString, Scalar.payload, Scalar.value, writeBinary]
  have hport : toNumeric 2 ((Scalar.endpoint protocol address port).payload ip) = port :=
    toNumeric_toBuffer_append (n := 2) port (ip.toString address)
  rw [makeEndpoint, htext, hport, ok_bind, ip.makeAddress_toString, ok_bind]

theorem makeRaw_payload (literal : Bytes) (code : BitVec 16) :
    makeRaw ((Scalar.raw literal code).payload ip) = .ok (.raw literal code) := by
  have htext : makeString ((Scalar.raw literal code).payload ip) 2 = .ok literal := by
    simp [makeString, Scalar.payload, Scalar.value, writeBinary]
  have hcode : toNumeric 2 ((Scalar.raw literal code).payload ip) = code :=
    toNumeric_toBuffer_append (n := 2) code literal
  rw [makeRaw, htext, hcode, ok_bind]

theorem byteAt_payload_char (v : BitVec 8) :
    byteAt ((Scalar.char v).payload ip) 0 = .ok ⟨v⟩ := by
  have hbyte : UInt8.ofNat v.toNat = ⟨v⟩ := by
    apply UInt8.toNat_inj.mp
    simp
  simp [byteAt, Scalar.payload, Scalar.value, writeBinary, toBuffer, toBE, toLE, hbyte]

/-- The decoder turns the written payload into the value that is received. -/
theorem deserialize_payload {v : Scalar} (h : v.Decodable b) :
    deserialize b ip (v.payload ip) v.typeCode.code = .ok v.received := by
  have hlen := Scalar.length_payload ip v
  unfold deserialize
  rw [TypeCode.ofCode_code]
  cases v with
  -- one case per branch of the switch; where a branch asserts a size, `hlen` discharges it
  | null => exact sized_of b hlen _ _
  | eod => exact sized_of b hlen _ _
  | bool v =>
    simp only [Scalar.typeCode, Scalar.announced] at hlen ⊢
    rw [Build.check_of hlen]
    cases v <;> rfl
  | char v =>
    simp only [Scalar.typeCode, Scalar.announced] at hlen ⊢
    rw [Build.check_of hlen, ok_bind, byteAt_payload_char]
    rfl
  | float ty bits => cases ty <;> exact deserializeFloat_payload b ip _ bits
  | int ty v => cases ty <;> exact deserializeInt_payload b ip _ v
  | string str => rfl
  | fsPath path => rfl
  | timePoint ticks =>
    exact congrArg (fun x => Except.ok (Scalar.timePoint x)) (toNumeric_toBuffer (n := 8) ticks)
  | duration unit ticks =>
    cases unit <;> exact congrArg Except.ok (makeDuration_payload ip _ ticks)
  | buffer buf => rfl
  | version full =>
    exact congrArg (fun x => Except.ok (Scalar.version x)) (toNumeric_toBuffer (n := 4) full)
  | revision full =>
    exact congrArg (fun x => Except.ok (Scalar.revision x)) (toNumeric_toBuffer (n := 8) full)
  | op code =>
    simp only [Scalar.typeCode, Scalar.announced] at hlen ⊢
    rw [makeOp, Build.check_of hlen, ok_bind, ok_bind]
    exact congrArg (fun x => Except.ok (Scalar.op x)) (toNumeric_toBuffer (n := 2) code)
  | severity level =>
    simp only [Scalar.typeCode, Scalar.announced] at hlen ⊢
    rw [makeSeverity, Build.check_of hlen, ok_bind, ok_bind]
    exact congrArg (fun x => Except.ok (Scalar.severity x)) (toNumeric_toBuffer (n := 1) level)
  | mac48 address =>
    simp only [Scalar.typeCode, Scalar.announced] at hlen ⊢
    rw [sized_of b hlen]
    exact congrArg (fun x => Except.ok (Scalar.mac48 x)) (Octets.ofBuffer_val address)
  | mac64 address =>
    simp only [Scalar.typeCode, Scalar.announced] at hlen ⊢
    rw [sized_of b hlen, makeMac64_payload]
    rfl
  | pid id => exact congrArg (fun x => Except.ok (Scalar.pid x)) (makePid_payload id ip)
  | obis code =>
    have hobis : makeObis ((Scalar.obis code).payload ip) 0 = .ok code := by
      simpa [Scalar.payload, Scalar.value] using makeObis_append [] code []
    simp only [Scalar.typeCode, Scalar.announced] at hlen ⊢
    rw [Build.check_of hlen, ok_bind, hobis]
    rfl
  | obisPath path =>
    have hmod : ((Scalar.obisPath path).payload ip).length % 6 = 0 := by
      rw [hlen]
      exact Nat.mul_mod_left _ _
    simp only [Scalar.typeCode]
    rw [Build.check_of hmod, ok_bind, makeObisPath_payload]
    rfl
  | edis code =>
    simp only [Scalar.typeCode, Scalar.announced] at hlen ⊢
    rw [sized_of b hlen]
    exact congrArg (fun x => Except.ok (Scalar.edis x)) (Octets.ofBuffer_val code)
  | color8 color =>
    simp only [Scalar.typeCode, Scalar.announced] at hlen ⊢
    rw [sized_of b hlen, makeColor8_payload]
    rfl
  | color16 color => exact absurd h id
  | digest ty d => cases ty <;> exact makeDigest_payload b ip _ _ d
  | aesKey ty key => cases ty <;> exact makeAesKey_payload b ip _ _ key
  | raw literal code =>
    -- only a debug build asserts that there is more than the type code
    have hsize : b.check rawAssertion (2 < ((Scalar.raw literal code).payload ip).length) =
        .ok () := by
      refine Build.check_eq_ok_iff.mpr fun hb => ?_
      rw [hlen, Scalar.announced]
      exact Nat.lt_add_of_pos_left (List.length_pos_of_ne_nil (h hb))
    simp only [Scalar.typeCode]
    rw [← rawAssertion, hsize, ok_bind, makeRaw_payload]
    rfl
  | errorCode ec => exact makeEc_payload ec ip
  | uuid tag =>
    simp [Scalar.typeCode, makeUuid, Scalar.received, Scalar.payload, Scalar.value, tag.property]
  | ipAddress address =>
    simp only [Scalar.typeCode]
    rw [show (Scalar.ipAddress address).payload ip = ip.toString address from rfl,
      ip.makeAddress_toString]
    rfl
  | endpoint protocol address port =>
    cases protocol <;> exact makeEndpoint_payload ip _ address port

/-- A value that is not decodable does not come out at all. -/
theorem deserialize_payload_ne_ok {v : Scalar} (h : ¬v.Decodable b) (w : Scalar) :
    deserialize b ip (v.payload ip) v.typeCode.code ≠ .ok w := by
  unfold deserialize
  rw [TypeCode.ofCode_code]
  cases v with
  | color16 color =>
    simp only [Scalar.typeCode]
    intro hok
    obtain ⟨_, _, hok⟩ := bind_eq_ok_iff.mp hok
    obtain ⟨d, hd, _⟩ := bind_eq_ok_iff.mp hok
    exact makeColor16_payload_ne_ok b color d ip hd
  | raw literal code =>
    simp only [Scalar.Decodable, Classical.not_imp, not_not] at h
    obtain ⟨hb, rfl⟩ := h
    simp only [Scalar.typeCode]
    intro hok
    obtain ⟨_, hcheck, _⟩ := bind_eq_ok_iff.mp hok
    have hsize := Build.check_eq_ok_iff.mp hcheck hb
    simp [Scalar.payload, Scalar.value, writeBinary] at hsize
  | _ => exact absurd trivial h

/-- The condition under which a value comes out of the decoder as it went into the
writer. -/
def Scalar.Survives (b : Build) : Scalar → Prop
  | mac64 a =>
    ∀ w ∈ [a.word1, a.word2, a.word3, a.word4], w.toNat / 256 = w.toNat % 256
  | errorCode ec => ec.category = ErrorCode.generic ∨ ec.category = ErrorCode.system
  | color16 _ => False
  | raw literal _ => b.enabled rawAssertion = true → literal ≠ []
  | _ => True

theorem swapBytes_eq_self_iff (w : BitVec 16) :
    swapBytes w = w ↔ w.toNat / 256 = w.toNat % 256 := by
  have hw : w.toNat < 2 ^ 16 := w.isLt
  rw [← BitVec.toNat_inj, toNat_swapBytes]
  omega

theorem Scalar.survives_iff {v : Scalar} : v.Survives b ↔ v.Decodable b ∧ v.received = v := by
  have hne : ErrorCode.success.category = ErrorCode.system := rfl
  cases v with
  | mac64 a =>
    simp [Survives, Decodable, received, Mac64.swapped, Mac64.ext_iff, ← swapBytes_eq_self_iff]
  | errorCode ec =>
    simp only [Survives, Decodable, received, true_and]
    constructor
    · intro h
      rw [if_pos h]
    · intro h
      by_contra hcat
      rw [if_neg hcat, Scalar.errorCode.injEq] at h
      exact hcat (Or.inr (h ▸ hne))
  | _ => simp [Survives, Decodable, received]

/-- A value is written as its type code, the length of its payload and its payload, and
the decoder of that type code gives it back exactly when it survives. -/
theorem deserialize_write_iff (v : Scalar) :
    (v.write ip).bytes =
        (serializeTypeTag v.typeCode).bytes ++
          (serializeLength (v.payload ip).length).bytes ++ v.payload ip ∧
      (deserialize b ip (v.payload ip) v.typeCode.code = .ok v ↔ v.Survives b) := by
  refine ⟨by rw [Scalar.length_payload]; rfl, ?_⟩
  rw [Scalar.survives_iff]
  by_cases h : v.Decodable b
  · rw [deserialize_payload b ip h, Except.ok.injEq]
    exact (and_iff_right h).symm
  · exact iff_of_false (deserialize_payload_ne_ok b ip h v) fun hv => h hv.1

/-- A 16 bit color does not come back, whatever assertions are compiled in. -/
theorem color16_lost :
    ¬∀ (b : Build) (ip : IpText) (v : Scalar), (∀ ty bits, v ≠ .float ty bits) →
      deserialize b ip (v.payload ip) v.typeCode.code = .ok v := by
  intro h
  have hcolor := h .release .tagged (.color16 ⟨1, 2, 3, 4⟩) (by simp)
  exact deserialize_payload_ne_ok .release .tagged id _ hcolor

end Codec

end Cyng
