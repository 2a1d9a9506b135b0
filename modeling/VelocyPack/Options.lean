import VelocyPack.Bytes

/-!
# Options and exceptions

The parts of `Options` and `Exception` that the modelled code of `Builder.h` reads or throws.
`Options.h` and `Exception.h` are not among the repository's files: the fields and codes are
those named in `Builder.h`, with the meaning the specification gives them
(`checkAttributeUniqueness` and `DuplicateAttributeName` from §4.2 step 4, §6 and §7).
-/

namespace VelocyPack

/-- The `Exception::ExceptionType` codes thrown by the modelled code; `foreign` is any other
exception, such as one a user serializer throws, which the builder's `catch (...)` blocks
catch all the same. -/
inductive ExceptionType where
  | builderNeedOpenObject
  | builderNeedOpenArray
  | builderNeedOpenCompound
  | builderKeyAlreadyWritten
  | builderKeyMustBeString
  | builderExternalsDisallowed
  | builderBCDDisallowed
  | builderUnexpectedType
  | duplicateAttributeName
  | foreign
deriving DecidableEq, Repr

/-- The fields of `Options` the modelled code reads. `attributeTranslator` is the optional
name table: `translate` gives the bytes of a short key for a known attribute name. -/
structure Options where
  checkAttributeUniqueness : Bool := false
  disallowExternals : Bool := false
  disallowBCD : Bool := false
  attributeTranslator : Option (List UInt8 → Option (List UInt8)) := none

/-- `Options::Defaults`. -/
def Options.defaults : Options := {}

end VelocyPack
