import Cyng.Parse.Numbers

/-!
# Identifiers as text

Buffers, addresses, OBIS codes, paths of OBIS codes and EDIS codes, as streams write them and as
they are read back. Two of the readers lose what was written. A path without a code is an empty
text, which is read as one part, a code of zeros. And an EDIS code is read by a loop over an empty
range, so that all of its groups are zero.
-/

namespace Cyng

open Theory

/-! ### Splitting -/

/-- Empty tokens between others are left out. -/
def compressTokens : List Bytes → List Bytes
  | [] => []
  | first :: rest => first :: (rest.dropLast.filter (· ≠ []) ++ rest.getLast?.toList)

/-- `split`, where separators in a row count as one. -/
def split (str delims : Bytes) : List Bytes := compressTokens (str.splitOnP (· ∈ delims))

theorem compressTokens_of_ne_nil {tokens : List Bytes} (h : ∀ token ∈ tokens, token ≠ []) :
    compressTokens tokens = tokens := by
  cases tokens with
  | nil => rfl
  | cons first rest =>
    have hkeep : rest.dropLast.filter (· ≠ []) = rest.dropLast :=
      List.filter_eq_self.mpr fun token hmem =>
        decide_eq_true (h token (List.mem_cons_of_mem _ (List.dropLast_subset rest hmem)))
    rw [compressTokens, hkeep]
    cases hlast : rest.getLast? with
    | none =>
      rw [List.getLast?_eq_none_iff.mp hlast]
      rfl
    | some last => rw [Option.toList_some, List.dropLast_append_getLast? last hlast]

/-- Parts without a separator are found again, if none of them is empty. -/
theorem split_intercalate {sep : UInt8} {parts : List Bytes} (hsep : ∀ part ∈ parts, sep ∉ part)
    (hne : ∀ part ∈ parts, part ≠ []) (hparts : parts ≠ []) :
    split ([sep].intercalate parts) [sep] = parts := by
  have hpred : (fun c => decide (c ∈ [sep])) = (· == sep) := by
    funext c
    rw [Bool.eq_iff_iff]
    simp
  have hsplit : ([sep].intercalate parts).splitOnP (· ∈ [sep]) = parts := by
    rw [hpred]
    exact List.splitOn_intercalate sep hsep hparts
  rw [split, hsplit, compressTokens_of_ne_nil hne]

/-! ### Writing -/

/-- `operator<<(std::ostream&, buffer_t const&)` -/
def bufferToString (buf : Bytes) : Bytes := hexBytes buf

/-- `to_string(obis const&)` -/
def obisToString (code : Obis) : Bytes := hexBytes code.val

/-- `operator<<(std::ostream&, obis_path_t const&)` -/
def obisPathToString (path : List Obis) : Bytes := [colon].intercalate (path.map obisToString)

/-- `operator<<(std::ostream&, edis const&)` -/
def edisToString (code : Octets 3) : Bytes :=
  [dot].intercalate (code.val.map fun c => numeral 10 c.toNat)

/-! ### Reading -/

/-- `to_obis` -/
def toObis (b : Build) (str : Bytes) : Except Fault Obis := do
  let buffer ← hexToBuffer b str
  return if h : buffer.length = 6 then ⟨buffer, h⟩ else Octets.zero 6

/-- `to_obis_path` -/
def toObisPath (b : Build) (str : Bytes) : Except Fault (List Obis) :=
  (split str [colon]).mapM (toObis b)

/-- What `std::transform` leaves in an array: its results, and behind them what was there. -/
def overwrite {α : Type*} (a results : List α) : List α := results ++ a.drop results.length

/-- `to_edis`. The range that is transformed ends where it begins. -/
def toEdis (str : Bytes) : Octets 3 :=
  let a : Bytes := [0, 0, 0]
  let v := split str [dot]
  let a := if v.length = 3 then
    overwrite a ((v.take 0).map fun s => UInt8.ofBitVec (toNumericText .uint8 10 s))
  else a
  Octets.ofBuffer 3 a

section Texts

variable {b : Build}

theorem toObis_obisToString (code : Obis) : toObis b (obisToString code) = .ok code := by
  rw [toObis, obisToString, hexToBuffer_hexBytes, ok_bind, dif_pos code.property]
  rfl

theorem obisToString_ne_nil (code : Obis) : obisToString code ≠ [] := by
  intro hnil
  have hlen := congrArg List.length hnil
  rw [obisToString, length_hexBytes, code.property] at hlen
  cases hlen

theorem colon_notMem_hexBytes (bytes : Bytes) : colon ∉ hexBytes bytes := by
  intro hmem
  obtain ⟨byte, -, hbyte⟩ := List.mem_flatMap.mp hmem
  exact colon_notMem (isHex_hexPad_two byte) hbyte

theorem toObisPath_obisPathToString {path : List Obis} (h : path ≠ []) :
    toObisPath b (obisPathToString path) = .ok path := by
  have hsplit : split (obisPathToString path) [colon] = path.map obisToString := by
    apply split_intercalate
    · intro part hpart
      obtain ⟨code, -, rfl⟩ := List.mem_map.mp hpart
      exact colon_notMem_hexBytes code.val
    · intro part hpart
      obtain ⟨code, -, rfl⟩ := List.mem_map.mp hpart
      exact obisToString_ne_nil code
    · exact mt List.map_eq_nil_iff.mp h
  have hcodes := mapM_map_of_ok (h := id) (toObis_obisToString (b := b)) path
  rw [toObisPath, hsplit, hcodes, List.map_id]

/-- The empty path comes back with a code in it. -/
theorem toObisPath_nil : toObisPath b (obisPathToString []) = .ok [Octets.zero 6] := by
  have hempty : toObis b [] = .ok (Octets.zero 6) := by
    simp [toObis, hexToBuffer, Build.check_of, hexPairs]
  have hsplit : split (obisPathToString []) [colon] = [[]] := rfl
  rw [toObisPath, hsplit, List.mapM_cons, hempty]
  rfl

/-- Every text is read as the same code. -/
theorem toEdis_eq_zero (str : Bytes) : toEdis str = Octets.zero 3 := by
  have htake : ((split str [dot]).take 0).map
      (fun s => UInt8.ofBitVec (toNumericText .uint8 10 s)) = [] := rfl
  simp only [toEdis, htake]
  split
  · rfl
  · rfl

end Texts

/-! ### All of them -/

/-- Values that are written, one of each kind. -/
structure Identifiers where
  buf : Bytes
  path : List Obis
  edis : Octets 3
  mac48 : Octets 6
  mac64 : Mac64

/-- Every one of the values is read back from its text. -/
structure ReadsBack (b : Build) (v : Identifiers) : Prop where
  buf : hexToBuffer b (bufferToString v.buf) = .ok v.buf
  path : toObisPath b (obisPathToString v.path) = .ok v.path
  edis : toEdis (edisToString v.edis) = v.edis
  mac48 : toMac48 b (mac48ToString v.mac48) = .ok v.mac48
  mac64 : toMac64 b (mac64ToString v.mac64) = .ok v.mac64

/-- Buffers and addresses are always read back, a path if it has a code, and of the EDIS codes
only the one of zeros. -/
theorem readsBack_iff (b : Build) (v : Identifiers) :
    ReadsBack b v ↔ v.path ≠ [] ∧ v.edis = Octets.zero 3 := by
  constructor
  · intro h
    refine ⟨?_, ?_⟩
    · intro hnil
      have hpath := h.path
      rw [hnil, toObisPath_nil] at hpath
      cases hpath
    · rw [← h.edis, toEdis_eq_zero]
  · rintro ⟨hpath, hedis⟩
    exact {
      buf := hexToBuffer_hexBytes v.buf
      path := toObisPath_obisPathToString hpath
      edis := by rw [toEdis_eq_zero, hedis]
      mac48 := toMac48_mac48ToString v.mac48
      mac64 := toMac64_mac64ToString v.mac64 }

/-- The code 1.8.0 comes back as 0.0.0, and a path without codes with one. -/
theorem not_readsBack_edis :
    ¬ReadsBack .release ⟨[], [Octets.zero 6], ⟨[1, 8, 0], rfl⟩, Octets.zero 6, ⟨0, 0, 0, 0⟩⟩ ∧
      ¬ReadsBack .release ⟨[], [], Octets.zero 3, Octets.zero 6, ⟨0, 0, 0, 0⟩⟩ := by
  constructor
  · intro h
    have hedis := h.edis
    rw [toEdis_eq_zero] at hedis
    exact absurd hedis (by decide)
  · intro h
    have hpath := h.path
    rw [toObisPath_nil] at hpath
    cases hpath

end Cyng
