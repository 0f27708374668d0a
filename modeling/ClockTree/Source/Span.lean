/-!
# Places in scripts

A span is a range of bytes in one of the scripts that were read. Scripts are numbered in the order
in which they were read.
-/
namespace ClockTree

structure Span where
  file : Nat
  start : Nat
  stop : Nat
deriving DecidableEq, Repr

namespace Span

def noFile : Nat := 0xFFFFFFFF

def nowhere : Span := ⟨noFile, 0, 0⟩

def size (s : Span) : Nat := s.stop - s.start

def isEmpty (s : Span) : Bool := s.size == 0

def isNowhere (s : Span) : Bool := s.file == noFile

end Span
end ClockTree
