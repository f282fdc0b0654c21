/-!
# Ranges and locations

Byte ranges of a document and where in which document something lies. A range contains both of
its ends, so that a cursor right behind the last character still hits.
-/
namespace PhpIndex

structure Range where
  start : UInt32
  stop : UInt32
  deriving DecidableEq, Inhabited

namespace Range

def contains (r : Range) (offset : UInt32) : Bool := r.start ≤ offset && offset ≤ r.stop

/-- Whether the other range lies inside this one. -/
def encloses (r other : Range) : Bool := r.start ≤ other.start && other.stop ≤ r.stop

/-- The number of bytes, none if the range ends before it starts. -/
def length (r : Range) : UInt32 := if r.start ≤ r.stop then r.stop - r.start else 0

def isEmpty (r : Range) : Bool := r.stop ≤ r.start

end Range

/-- A line and a column in UTF-16 code units, both from zero. -/
structure Position where
  line : UInt32
  column : UInt32
  deriving DecidableEq, Inhabited

/-- Either part is missing for what stands in no document. -/
structure Location where
  uri? : Option String
  range? : Option Range
  deriving DecidableEq, Inhabited

namespace Location

def empty : Location := ⟨none, none⟩

def of (uri : String) (range : Range) : Location := ⟨some uri, some range⟩

def isEmpty (l : Location) : Bool := l.uri?.isNone || l.range?.isNone

def uri (l : Location) : String := l.uri?.getD ""

def start (l : Location) : UInt32 := (l.range?.map Range.start).getD 0

def contains (l : Location) (offset : UInt32) : Bool := l.range?.any (fun r => r.contains offset)

end Location
end PhpIndex
