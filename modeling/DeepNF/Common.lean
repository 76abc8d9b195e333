import Mathlib.Data.Finset.Insert
import Mathlib.Data.Fintype.Defs
import Std.Data.TreeMap.Lemmas

/-!
# Fields, network functions and runtime nodes (`src/common`)

`std::set<Field>` is a `Finset Field`; where the code iterates over one, it visits the members in the
order of the enumeration (`iterate`). `std::map<int, _>` is a `Std.TreeMap Int _`, whose
`insertIfNew` is `std::map::insert`.
-/

namespace DeepNF

/-- `Field.h`. -/
inductive Field
  | SIP | DIP | SPORT | DPORT | PAYLOAD
deriving DecidableEq, Repr

namespace Field

/-- The enumeration order, in which `std::set<Field>` is sorted. -/
def order : List Field := [SIP, DIP, SPORT, DPORT, PAYLOAD]

instance : Fintype Field := ⟨⟨order, by decide⟩, fun F => by cases F <;> decide⟩

theorem mem_order (F : Field) : F ∈ order := by cases F <;> decide

/-- The members of a `std::set<Field>` as `begin()` to `end()` visits them. -/
def iterate (s : Finset Field) : List Field := order.filter (· ∈ s)

@[simp] theorem mem_iterate {s : Finset Field} {F : Field} : F ∈ iterate s ↔ F ∈ s := by
  simp [iterate, mem_order]

end Field

/-- `NF.h`. -/
inductive NF
  | pktgen | dnfFirewall | dnfLoadbalancer | proxy | compressor
deriving DecidableEq, Repr

/-- `RuntimeNode`: an instance of a network function; `neighbors` holds node ids. -/
structure RuntimeNode where
  id : Int
  nf : NF
  neighbors : List Int := []
  inport : Int := 0
  outport : Int := 0
deriving DecidableEq, Repr

def RuntimeNode.addNeighbor (n : RuntimeNode) (nodeId : Int) : RuntimeNode :=
  { n with neighbors := n.neighbors ++ [nodeId] }

end DeepNF
