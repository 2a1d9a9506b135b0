import VelocyPack.Bytes
import VelocyPack.Options
import VelocyPack.Integers
import VelocyPack.Scalars
import VelocyPack.Builder.State
import VelocyPack.Read.Scalar
import VelocyPack.Builder.Methods
import VelocyPack.Builder.Contracts
import VelocyPack.Builder.Document
import VelocyPack.Builder.Refinement
import VelocyPack.Builder.Invariants
import VelocyPack.Builder.Build
import VelocyPack.Collection
import VelocyPack.Read.Compact
import VelocyPack.Read.Tree
import VelocyPack.Read.Collection
import VelocyPack.Read.Slice
import VelocyPack.Read.Indexed
