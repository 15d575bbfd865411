import Mathlib

/-!
# Primitives — hashes, scripts and transactions

`uint256` (`uint256.h`) is 32 bytes; a `CScript` (`script/script.h`) is its bytes; `COutPoint`,
`CTxIn`, `CTxOut` and `CTransaction` (`primitives/transaction.h`) are records of these.  A
`uint256` carries its length as a field.
-/

namespace Unitus

/-- `uint256`: 32 bytes, `data[0]` first. -/
structure Uint256 where
  data : List UInt8
  length_data : data.length = 32
  deriving DecidableEq, Repr

namespace Uint256

/-- `uint256()`: all bytes zero. -/
def zero : Uint256 := ⟨List.replicate 32 0, rfl⟩

instance : Inhabited Uint256 := ⟨zero⟩

/-- The `uint256` whose bytes are all `b`. -/
def replicate (b : UInt8) : Uint256 := ⟨List.replicate 32 b, List.length_replicate⟩

@[simp] theorem replicate_inj {x y : UInt8} : replicate x = replicate y ↔ x = y := by
  rw [replicate, replicate, mk.injEq]
  exact List.replicate_right_inj (by decide)

/-- `IsNull()`: every byte zero. -/
def IsNull (h : Uint256) : Bool := h.data.all (· == 0)

end Uint256

/-- `CScript`, a `prevector` of bytes. -/
abbrev CScript := List UInt8

/-- `COutPoint`. -/
structure COutPoint where
  hash : Uint256
  n : UInt32
  deriving DecidableEq, Inhabited

/-- `COutPoint::IsNull()`. -/
def COutPoint.IsNull (o : COutPoint) : Bool := o.hash.IsNull && o.n == 0xffffffff

/-- `CTxIn`; `scriptWitness` is the witness stack. -/
structure CTxIn where
  prevout : COutPoint
  scriptSig : CScript
  nSequence : UInt32
  scriptWitness : List (List UInt8)
  deriving DecidableEq, Inhabited

/-- `CTxIn::SEQUENCE_FINAL`. -/
def CTxIn.SEQUENCE_FINAL : UInt32 := 0xffffffff

/-- `CTxOut`; `nValue` is a `CAmount`, an `int64_t`. -/
structure CTxOut where
  nValue : Int
  scriptPubKey : CScript
  deriving DecidableEq, Inhabited

namespace CTxOut

/-- `CTxOut()`, which calls `SetNull()`: `nValue = -1`, empty script. -/
def null : CTxOut := ⟨-1, []⟩

/-- `CTxOut::IsNull()`: `nValue == -1`. -/
def IsNull (o : CTxOut) : Bool := o.nValue == -1

end CTxOut

/-- `CTransaction` (and `CMutableTransaction`, the same fields). -/
structure CTransaction where
  nVersion : Int32
  vin : List CTxIn
  vout : List CTxOut
  nLockTime : UInt32
  deriving DecidableEq, Inhabited

/-- `CTransaction::IsCoinBase()`. -/
def CTransaction.IsCoinBase (tx : CTransaction) : Bool :=
  match tx.vin with
  | [txin] => txin.prevout.IsNull
  | _ => false

end Unitus
