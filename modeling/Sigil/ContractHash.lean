import Sigil.Ast

/-!
# Contract hash

The bytes a contract feeds to SHA-256, and the eight hexadecimal digits kept of
the digest. The digest itself is a parameter.
-/

namespace Sigil

def AstType.toByte : AstType → UInt8
  | .int => 1
  | .float => 2
  | .bytes => 3
  | .string => 4

def Guarantee.toByte : Guarantee → UInt8
  | .pure => 1
  | .noAlloc => 2
  | .writesOutput => 3

/-- A `usize`, least significant byte first. -/
def sizeToLeBytes (size : Nat) : List UInt8 :=
  (List.range 8).map fun i => UInt8.ofNat (size >>> (8 * i))

def utf8Bytes (s : String) : List UInt8 :=
  s.toUTF8.data.toList

/-- A parameter as it is hashed. -/
def Parameter.hashBytes (param : Parameter) : List UInt8 :=
  utf8Bytes param.name ++ [param.typ.toByte] ++ sizeToLeBytes param.size

/-- A required behavior as it is hashed. -/
def BehaviorRef.hashBytes (ref : BehaviorRef) : List UInt8 :=
  utf8Bytes ref.name ++ utf8Bytes "@" ++ utf8Bytes ref.hash

/-- Everything a contract feeds to the hasher. Required MEMORY is not among it. -/
def Contract.hashInput (contract : Contract) : List UInt8 :=
  utf8Bytes "INPUTS:" ++ contract.inputs.flatMap Parameter.hashBytes ++
    utf8Bytes "OUTPUTS:" ++ contract.outputs.flatMap Parameter.hashBytes ++
    utf8Bytes "REQUIRES:" ++ contract.requires.behaviors.flatMap BehaviorRef.hashBytes ++
    utf8Bytes "GUARANTEES:" ++ contract.guarantees.map Guarantee.toByte

/-- Two lowercase hexadecimal digits a byte. -/
def hexEncode (bytes : List UInt8) : String :=
  String.ofList (bytes.flatMap fun b => [(b.toNat / 16).digitChar, (b.toNat % 16).digitChar])

/-- The hash of a contract: the first four bytes of its digest. -/
def computeContractHash (sha256 : List UInt8 → List UInt8) (contract : Contract) : String :=
  hexEncode ((sha256 contract.hashInput).take 4)

end Sigil
