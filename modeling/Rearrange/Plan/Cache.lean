import Rearrange.Plan.Compile
/-!
# A cache of compiled plans

A bounded cache from requests to plans, evicting the least recently used entry when full.
A request is keyed by its pattern, each input shape after a `|`, and the options after a last
`|`; the key is looked up before the pattern is read, so two requests with one key share a
plan. Each plan the cache stores gets a serial number, which tells a plan returned again
from one compiled anew.
-/
namespace Rearrange.Plan

/-- A plan stored in the cache under a key, with its serial number. -/
structure CacheEntry where
  key : String
  plan : Plan
  serial : Nat
  deriving Inhabited

/-- A plan cache: its capacity, its entries from the most recently used, and the serial
number of the next plan stored. -/
structure Cache where
  capacity : Nat
  entries : List CacheEntry := []
  nextSerial : Nat := 0
  deriving Inhabited

namespace Cache

/-- An empty cache of a positive capacity. -/
def new (size : Int) : Except Failure Cache :=
  if size ≤ 0 then .error (.plain ("einops.NewCache(" ++ toString size ++ "): Must provide a positive size"))
  else .ok { capacity := size.toNat }

/-- The key of a request. -/
def key (pattern : String) (inputs : List Shape) (opts : CompileOptions) : String :=
  pattern ++ String.join (inputs.map fun s => "|" ++ s.text) ++ "|" ++ opts.key

def size (c : Cache) : Nat := c.entries.length

def purge (c : Cache) : Cache := { c with entries := [] }

/-- The plan of a request and its serial number: the cached one, which becomes the most
recently used, or a new one compiled and stored, evicting the least recently used plan when
the cache is over capacity. A failed compile leaves the cache as it was. -/
def compile (c : Cache) (pattern : String) (inputs : List Shape) (opts : CompileOptions) :
    Cache × Except Failure (Plan × Nat) :=
  let k := key pattern inputs opts
  match c.entries.find? (·.key == k) with
  | some e => ({ c with entries := e :: c.entries.filter (·.key != k) }, .ok (e.plan, e.serial))
  | none =>
    match Plan.compile pattern inputs opts with
    | .error f => (c, .error f)
    | .ok p =>
      let e : CacheEntry := { key := k, plan := p, serial := c.nextSerial }
      ({ c with entries := (e :: c.entries).take c.capacity, nextSerial := c.nextSerial + 1 },
       .ok (p, e.serial))

end Cache

end Rearrange.Plan
