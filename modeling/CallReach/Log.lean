/-!
# Log lines

What an operation reports beside its result.  A log is a value: operations
return the lines in the order of their making, and the outer layer decides
which of them are shown.
-/

namespace CallReach

namespace Log

/-- How important a line is. -/
inductive Level where
  | debug
  | info
  | warning
  | error
deriving DecidableEq, Repr

namespace Level

/-- The rank of a level; more important ones have a greater rank. -/
def rank : Level → Nat
  | debug => 0
  | info => 1
  | warning => 2
  | error => 3

/-- The name of a level. -/
def name : Level → String
  | debug => "DEBUG"
  | info => "INFO"
  | warning => "WARNING"
  | error => "ERROR"

/-- The name of a level in exactly five characters. -/
def badge (level : Level) : String :=
  String.ofList ((level.name.toList ++ List.replicate 5 ' ').take 5)

end Level

/-- The part of the program that a line comes from. -/
inductive Channel where
  | command
  | config
  | passes
  | reachability
  | resolution
deriving DecidableEq, Repr

/-- The name of a channel. -/
def Channel.name : Channel → String
  | command => "ir_reachables"
  | config => "ir_reachables.config"
  | passes => "ir_reachables.passes"
  | reachability => "ir_reachables.reachability"
  | resolution => "ir_reachables.resolution"

/-- One line of a log. -/
structure Line where
  level : Level
  channel : Channel
  text : String
deriving DecidableEq, Repr

/-- A line as it is shown. -/
def Line.shown (line : Line) : String :=
  "[" ++ line.level.badge ++ "] " ++ line.channel.name ++ ": " ++ line.text

end Log

/-- Lines in the order of their making. -/
abbrev Log := List Log.Line

/-- The lines of a log that are at least as important as a level. -/
def Log.atLeast (log : Log) (level : Log.Level) : Log :=
  log.filter fun line => level.rank ≤ line.level.rank

end CallReach
