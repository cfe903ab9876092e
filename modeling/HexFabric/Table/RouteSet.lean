import HexFabric.Link

/-! Where a router sends a packet. -/

namespace HexFabric

/-- A set of links, and delivery to the cores of the chip itself: bit `i` stands for link number
`i`, and bit 6 for the cores. -/
structure RouteSet where
  bits : BitVec 8
  deriving DecidableEq

namespace RouteSet

def empty : RouteSet := ⟨0⟩

def localBit : Nat := 6

def withLink (r : RouteSet) (l : Link) : RouteSet := ⟨r.bits ||| BitVec.twoPow 8 l.index⟩

def withLocal (r : RouteSet) : RouteSet := ⟨r.bits ||| BitVec.twoPow 8 localBit⟩

def hasLink (r : RouteSet) (l : Link) : Bool := r.bits.getLsbD l.index

def isLocal (r : RouteSet) : Bool := r.bits.getLsbD localBit

def isEmpty (r : RouteSet) : Bool := r.bits == 0

/-- The links of a set, by number. -/
def links (r : RouteSet) : List Link := Link.all.filter r.hasLink

/-- The only link of a set that holds nothing else. -/
def singleLink? (r : RouteSet) : Option Link :=
  match r.isLocal, r.links with
  | false, [l] => some l
  | _, _ => none

instance : ToString RouteSet where
  toString r :=
    let names := r.links.map Link.name ++ (if r.isLocal then ["local"] else [])
    "\x7b" ++ ", ".intercalate names ++ "\x7d"

end RouteSet

end HexFabric
