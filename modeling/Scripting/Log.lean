import Scripting.Collector
import Scripting.Text.Quoted

/-! What a run reports besides its values: log entries with a level, a message and fields. -/
namespace Scripting

inductive LogLevel where
  | trace | debug | warn | error
  deriving DecidableEq, Repr, Inhabited

inductive LogEvent where
  | evaluating (what : String) (span : Option Span)
  | pruned (dropped kept : Nat)
  | swept (stats : SweepStats)
  | collectorStarted (config : GcConfig)
  | collectorStopped (released : Nat)
  | outputFailed (reason : String)
  | flushFailed (reason : String)
  | reported (error : Error)
  deriving Repr, Inhabited

namespace LogEvent

def level : LogEvent → LogLevel
  | .evaluating _ _ => .trace
  | .pruned _ _ | .swept _ | .collectorStarted _ | .collectorStopped _ => .debug
  | .outputFailed _ | .flushFailed _ => .warn
  | .reported e => if e.isWarning then .warn else .error

def message : LogEvent → String
  | .evaluating _ _ => "eval"
  | .pruned _ _ => "pruned function objects"
  | .swept _ => "forced sweep"
  | .collectorStarted config =>
    if config.background then "collector started" else "collector started without background thread"
  | .collectorStopped _ => "collector stopped"
  | .outputFailed _ => "builtin output failed"
  | .flushFailed _ => "flushing output failed"
  | .reported e => e.message

/-- The named texts that come with the message. -/
def fields : LogEvent → List (String × String)
  | .evaluating what span => [("kind", what), ("span", Span.logText span)]
  | .pruned dropped kept => [("pruned", Nat.repr dropped), ("kept", Nat.repr kept)]
  | .swept stats => [("scanned", Nat.repr stats.scanned), ("freed", Nat.repr stats.freed)]
  | .collectorStarted config =>
    if config.background then [("interval_ms", Nat.repr config.intervalMs)] else []
  | .collectorStopped released => [("released", Nat.repr released)]
  | .outputFailed reason | .flushFailed reason => [("error", reason)]
  | .reported e =>
    [("kind", e.kind.label), ("location", Span.logText e.span),
      ("hints", "[" ++ ", ".intercalate (e.hints.map (quoted ·.text)) ++ "]")]

end LogEvent
end Scripting
