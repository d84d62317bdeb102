import Bytewise.ByteSet.Basic

/-!
# Runs of edits

A set changes by edits. Inserting and erasing one byte report what the set held before.

Core Lean only.
-/

namespace Bytewise.ByteSet

inductive Edit
  | insert (b : Byte)
  | erase (b : Byte)
  | insertAll (bs : List Byte)
  | complement
  deriving DecidableEq, Repr

namespace Edit

def apply (s : ByteSet) : Edit → ByteSet
  | insert b => s.insert b
  | erase b => s.erase b
  | insertAll bs => s.insertAll bs
  | complement => s.complement

/-- Inserting tells whether the byte was new, erasing whether it was there. -/
def report (s : ByteSet) : Edit → Option Bool
  | insert b => some !s.contains b
  | erase b => some (s.contains b)
  | insertAll _ => none
  | complement => none

end Edit

/-- The report of each edit and the set after it, in order. -/
def run (s : ByteSet) : List Edit → List (Option Bool × ByteSet)
  | [] => []
  | e :: es => (e.report s, e.apply s) :: run (e.apply s) es

end Bytewise.ByteSet
