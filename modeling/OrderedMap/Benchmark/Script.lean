import OrderedMap.Benchmark.Work
import OrderedMap.Text.Quoted

/-!
The course of a benchmark run: the stages whose durations are reported, the records it logs, and
the wording of its lines.
-/
namespace OrderedMap
namespace Benchmark

/-- The element count when none is given. -/
def defaultElements : Int := 1000000

/-- A log line, known by its level and the part of the program that writes it. -/
structure LogLine where
  level : Level
  target : String
  message : String
  deriving DecidableEq, Repr

namespace LogLine

/-- The level is padded to five characters. -/
protected def toString (l : LogLine) : String :=
  let level := l.level.toString
  let padding := String.ofList (List.replicate (5 - level.length) ' ')
  "[" ++ level ++ padding ++ " " ++ l.target ++ "] " ++ l.message

/-- Lines at the threshold or graver are shown; without a threshold none is. -/
def isShown (threshold : Option Level) (l : LogLine) : Bool :=
  match threshold with
  | none => false
  | some t => decide (l.level.rank ≤ t.rank)

/-- The part of the program that writes a record of the map. -/
def targetOf : Record → String
  | .recolored _ | .innerRotation _ | .outerRotation _ => "rbmap::rbtree::insert"
  | .cleared _ _ | .moved _ _ _ | .dropping _ _ => "rbmap::rbtree"
  | _ => "rbmap::rbtree::remove"

def ofRecord (r : Record) : LogLine := ⟨r.level, targetOf r, r.message⟩

end LogLine

/-- A part of a run. -/
inductive Stage
  /-- Work whose duration is reported under a title. -/
  | timed (title : String) (work : BenchM Unit)
  /-- A line logged by the benchmark itself. -/
  | logged (message : Bench → String)

/-- The stages of a run, in order. -/
def stages (elements : Int) : List Stage := [
  .logged fun _ => "benchmarking with " ++ toString elements ++ " elements",
  .timed "rbtree insert" (Subject.map.fill elements),
  .logged fun b => "rbtree holds " ++ toString b.space.map.count ++ " entries",
  .timed "rbtree get" (Subject.map.lookUp elements),
  .timed "rbtree iter" Subject.map.iterate,
  .timed "rbtree remove" (Subject.map.drain elements),
  .timed "btreemap insert" (Subject.library.fill elements),
  .timed "btreemap get" (Subject.library.lookUp elements),
  .timed "btreemap iter" Subject.library.iterate,
  .timed "btreemap remove" (Subject.library.drain elements)]

/-- What a stage brought forth: its log lines, and the title of the work that was completed. -/
structure Progress where
  log : List LogLine
  completed : Option String
  failure : Option Failure

/-- Carry out a stage, with the journal begun anew. -/
def Stage.carryOut (b : Bench) : Stage → Progress × Bench
  | .logged message => (⟨[⟨.info, "trees", message b⟩], none, none⟩, b)
  | .timed title work =>
    let ⟨⟨m, clock, _⟩, reference⟩ := b
    match work ⟨⟨m, clock, ∅⟩, reference⟩ with
    | .ok _ b => (⟨b.space.journal.records.toList.map .ofRecord, some title, none⟩, b)
    | .error f b => (⟨b.space.journal.records.toList.map .ofRecord, none, some f⟩, b)

/-- The element count asked for by the arguments, of which only the first counts. -/
def elements? (args : List String) : Except LogLine Int :=
  match args with
  | [] => .ok defaultElements
  | arg :: _ =>
    match Numeral.parse arg with
    | .ok n => .ok n
    | .error e =>
      .error ⟨.error, "trees", "bad element count " ++ quote arg ++ ": " ++ e.message⟩

/-- The line that reports a duration. -/
def durationLine (title duration : String) : String :=
  title ++ ": operation took " ++ duration

/-- A duration in seconds with three decimals. -/
def duration (milliseconds : Nat) : String :=
  let thousandths := toString (milliseconds % 1000)
  toString (milliseconds / 1000) ++ "." ++
    String.ofList (List.replicate (3 - thousandths.length) '0') ++ thousandths ++ "s"

/-- The exit status after a failure. -/
def failureStatus : Nat := 101

/-- What the surroundings of a run add to the report of a failure. -/
structure Host where
  /-- The number of the thread. -/
  thread : Nat
  /-- The name under which the program's text was compiled. -/
  source : String
  /-- Where in the text of the map a fault arises. -/
  faultPlace : Fault → String
  /-- What follows the message: the calls that were under way, if they are to be told. -/
  trace : Failure → List String

namespace Host

/-- A host that tells of no calls. -/
def plain : Host := ⟨1, "benchmark", fun _ => "map", fun _ => []⟩

/-- Where a failure arises, in words. -/
def whereabouts (h : Host) : Failure → String
  | .failed _ place => h.source ++ ":" ++ toString place.line ++ ":" ++ toString place.column
  | .fault f => h.faultPlace f

/-- The lines of the report of a failure. -/
def report (h : Host) (f : Failure) : List String :=
  ["", "thread \x27main\x27 (" ++ toString h.thread ++ ") panicked at " ++ h.whereabouts f ++ ":"] ++
    f.message ++ h.trace f

end Host

/-- The lines that a finished run has written. -/
structure Transcript where
  status : Nat
  stdout : List String
  stderr : List String
  deriving DecidableEq, Repr

/-- The transcript of the stages that are left, every duration shown by the same text. -/
def transcribeStages (host : Host) (duration : String) (threshold : Option Level) :
    List Stage → Bench → Transcript
  | [], _ => ⟨0, [], []⟩
  | stage :: rest, b =>
    let (progress, b) := stage.carryOut b
    let shown := (progress.log.filter (·.isShown threshold)).map (·.toString)
    match progress.failure with
    | some f => ⟨failureStatus, [], shown ++ host.report f⟩
    | none =>
      let later := transcribeStages host duration threshold rest b
      ⟨later.status, (progress.completed.map (durationLine · duration)).toList ++ later.stdout,
        shown ++ later.stderr⟩

/-- The transcript of a run with arguments. A bad element count is logged and ends the run. -/
def transcribeOn (host : Host) (duration : String) (threshold : Option Level)
    (args : List String) : Transcript :=
  match elements? args with
  | .error l => ⟨0, [], if l.isShown threshold then [l.toString] else []⟩
  | .ok n => transcribeStages host duration threshold (stages n) .start

def transcribe (duration : String) (threshold : Option Level) (args : List String) : Transcript :=
  transcribeOn .plain duration threshold args

/-- The threshold when none is set. -/
def defaultThreshold : Option Level := some .error

/-- The threshold of a name, if it is one of a level or `off`. -/
def threshold? : String → Option (Option Level)
  | "off" => some none
  | "error" => some (some .error)
  | "warn" => some (some .warn)
  | "info" => some (some .info)
  | "debug" => some (some .debug)
  | "trace" => some (some .trace)
  | _ => none

end Benchmark
end OrderedMap
