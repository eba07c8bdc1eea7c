import OrderedMap.Benchmark.Script

/-!
The command line: the benchmark with the element count given by the first argument, its durations
on standard output and its log on standard error. An environment variable names the threshold of the
log.
-/
namespace OrderedMap
namespace Benchmark

/-- Carry out stages, and write their lines as they come. -/
def runStages (threshold : Option Level) : List Stage → Bench → IO UInt32
  | [], _ => pure 0
  | stage :: rest, b => do
    let start ← IO.monoMsNow
    let (progress, b) := stage.carryOut b
    for l in progress.log do
      if l.isShown threshold then
        IO.eprintln l.toString
    match progress.failure with
    | some f =>
      for line in Host.plain.report f do
        IO.eprintln line
      return failureStatus.toUInt32
    | none =>
      if let some title := progress.completed then
        let stop ← IO.monoMsNow
        IO.println (durationLine title (duration (stop - start)))
      runStages threshold rest b

/-- A run with the arguments of the command line. -/
def command (args : List String) : IO UInt32 := do
  let threshold := match ← IO.getEnv "RUST_LOG" with
    | none => defaultThreshold
    | some name => (threshold? name).getD defaultThreshold
  match elements? args with
  | .error l =>
    if l.isShown threshold then
      IO.eprintln l.toString
    return 0
  | .ok n => runStages threshold (stages n) .start

end Benchmark
end OrderedMap

def main (args : List String) : IO UInt32 := OrderedMap.Benchmark.command args
