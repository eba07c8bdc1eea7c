import OrderedMap.Map.Access
import OrderedMap.Map.Iteration
import OrderedMap.Text.Numeral
import Std.Data.TreeMap.Basic

/-!
What the benchmark does: under every key from one up to a bound its double is stored, the greatest
key first, and is then looked up, met in order, and removed, the least key first. The same is done
with a library tree for comparison. Keys and values are integers of 32 bits, and every calculation
with them checks that its result is one too. What fails is told with its place in the text of the
program.
-/
namespace OrderedMap
namespace Benchmark

/-- A place in the text of the program. -/
structure Place where
  line : Nat
  column : Nat
  deriving DecidableEq, Repr

inductive Calculation
  | add
  | multiply
  deriving DecidableEq, Repr

def Calculation.toString : Calculation → String
  | add => "add"
  | multiply => "multiply"

/-- What can go wrong in the benchmark's own text. -/
inductive Cause
  /-- The result of a calculation does not fit. -/
  | overflow (calculation : Calculation)
  /-- Two things differ that must be equal. -/
  | unequal (found expected : String)
  | missing (key : Int)
  deriving DecidableEq, Repr

/-- The lines of the message. -/
def Cause.message : Cause → List String
  | overflow calculation => ["attempt to " ++ calculation.toString ++ " with overflow"]
  | unequal found expected =>
    ["assertion \x60left == right\x60 failed", "  left: " ++ found, " right: " ++ expected]
  | missing key => ["missing " ++ toString key]

/-- Why a run ends early. -/
inductive Failure
  | failed (cause : Cause) (place : Place)
  /-- The map under test has run into a fault. -/
  | fault (f : Fault)
  deriving DecidableEq, Repr

def Failure.message : Failure → List String
  | failed cause _ => cause.message
  | fault f => f.message.splitOn "\n"

/-- The map under test and the library tree. -/
structure Bench where
  space : Workspace Int Int
  reference : Std.TreeMap Int Int

abbrev BenchM := EStateM Failure Bench

/-- Both trees empty. -/
def Bench.start : Bench := ⟨⟨Map.fresh ⟨0⟩ .natural, 0, ∅⟩, ∅⟩

variable {α : Type}

/-- Act on the map under test. The comparisons it makes are not kept. -/
def onMap (action : MapM Int Int α) : BenchM α := fun ⟨space, reference⟩ =>
  match action space with
  | .ok x ⟨m, clock, j⟩ => .ok x ⟨⟨m, clock, j.forgetCalls⟩, reference⟩
  | .error f ⟨m, clock, j⟩ => .error (.fault f) ⟨⟨m, clock, j.forgetCalls⟩, reference⟩

/-- Change the library tree. -/
def onReference (f : Std.TreeMap Int Int → α × Std.TreeMap Int Int) : BenchM α :=
  fun ⟨space, reference⟩ =>
    let (x, reference) := f reference
    .ok x ⟨space, reference⟩

def fail (cause : Cause) (place : Place) : BenchM α := throw (.failed cause place)

/-- The result of a calculation, if it is an integer of 32 bits. -/
def fitting (calculation : Calculation) (place : Place) (result : Int) : BenchM Int :=
  if IsInt32 result then pure result else fail (.overflow calculation) place

/-- The value stored under a key. -/
def doubled (place : Place) (key : Int) : BenchM Int := fitting .multiply place (key * 2)

def increased (place : Place) (n : Int) : BenchM Int := fitting .add place (n + 1)

/-- What is found must be what is expected. -/
def confirm [DecidableEq α] (text : α → String) (place : Place) (found expected : α) :
    BenchM Unit :=
  if found = expected then pure () else fail (.unequal (text found) (text expected)) place

/-- Do something for every key from a number down to one. -/
def downwards (work : Int → BenchM Unit) : Nat → BenchM Unit
  | 0 => pure ()
  | k + 1 => do
    work (k + 1 : Nat)
    downwards work k

/-- Do something for so many keys, beginning with a given one. The next key is calculated before
the work is done. -/
def upwards (place : Place) (work : Int → BenchM Unit) : Nat → Int → BenchM Unit
  | 0, _ => pure ()
  | k + 1, key => do
    let next ← increased place key
    work key
    upwards place work k next

/-- How many keys there are for an element count: those below it. -/
def keyCount (elements : Int) : Nat := (elements - 1).toNat

/-- A tree to work on, and the lines of the program's text from which on the four parts of the work
are written down. -/
structure Subject where
  insert : Int → Int → BenchM Unit
  get? : Int → BenchM (Option Int)
  keys : BenchM (List Int)
  remove? : Int → BenchM (Option Int)
  fillLine : Nat
  lookUpLine : Nat
  iterateLine : Nat
  drainLine : Nat

namespace Subject

/-- The map under test. -/
def map : Subject where
  insert key value := do
    let _ ← onMap (Map.insert key value)
  get? key := onMap (Map.get? key)
  keys := do
    let entries ← onMap (Map.survey (·.entries))
    return entries.map (·.tag)
  remove? key := onMap (Map.removeValue? key)
  fillLine := 23
  lookUpLine := 30
  iterateLine := 36
  drainLine := 44

/-- The library tree. -/
def library : Subject where
  insert key value := onReference fun t => ((), t.insert key value)
  get? key := onReference fun t => (t[key]?, t)
  keys := onReference fun t => (t.keys, t)
  remove? key := onReference fun t => (t[key]?, t.erase key)
  fillLine := 57
  lookUpLine := 63
  iterateLine := 69
  drainLine := 77

variable (s : Subject)

def fill (elements : Int) : BenchM Unit :=
  downwards (fun key => do s.insert key (← doubled ⟨s.fillLine + 2, 25⟩ key)) (keyCount elements)

/-- What a look-up found, in words. -/
def foundText : Option Int → String
  | none => "None"
  | some v => "Some(" ++ toString v ++ ")"

def lookUp (elements : Int) : BenchM Unit :=
  upwards ⟨s.lookUpLine + 1, 18⟩ (fun key => do
    let found ← s.get? key
    confirm foundText ⟨s.lookUpLine + 2, 13⟩ found (some (← doubled ⟨s.lookUpLine + 2, 42⟩ key)))
    (keyCount elements) 1

/-- The keys met on an iteration must be one, two, and so on. -/
def confirmKeys : List Int → Int → BenchM Unit
  | [], _ => pure ()
  | key :: rest, expected => do
    confirm toString ⟨s.iterateLine + 3, 13⟩ key expected
    confirmKeys rest (← increased ⟨s.iterateLine + 4, 13⟩ expected)

def iterate : BenchM Unit := do s.confirmKeys (← s.keys) 1

def drain (elements : Int) : BenchM Unit :=
  upwards ⟨s.drainLine + 1, 18⟩ (fun key => do
    match ← s.remove? key with
    | some v => confirm toString ⟨s.drainLine + 3, 28⟩ v (← doubled ⟨s.drainLine + 3, 42⟩ key)
    | none => fail (.missing key) ⟨s.drainLine + 4, 25⟩)
    (keyCount elements) 1

/-- The whole work on a tree. -/
def work (elements : Int) : BenchM Unit := do
  s.fill elements
  s.lookUp elements
  s.iterate
  s.drain elements

end Subject
end Benchmark
end OrderedMap
