/-!
# Powers

Powers of naturals are those of the core library, whatever else a module imports.
-/

namespace ResourceQuery

scoped instance natPower : Pow Nat Nat := instPowNat

end ResourceQuery
