import BlockLang.Text

/-!
# Options

The options of a compilation are the level of optimisation and whether the intermediate code is
printed. They are taken from two variables of the environment, and each can be set afterwards.

There are four levels, numbered from 0 to 3. A level is written as its number; blanks around it, a
plus sign and leading zeros do no harm. A level that cannot be read does not stop anything: the
default level is used, and a warning shows the text of the variable as it was found. The values of
the environment are bytes; bytes that are not UTF-8 count as no value at all.
-/

namespace BlockLang

/-! ## Levels -/

/-- How much effort goes into faster code. -/
inductive OptLevel where
  | off
  | less
  | standard
  | aggressive
deriving DecidableEq

namespace OptLevel

/-- The level of a number. -/
def ofNumber? : Nat → Option OptLevel
  | 0 => some off
  | 1 => some less
  | 2 => some standard
  | 3 => some aggressive
  | _ => none

/-- The name of a level. -/
def name : OptLevel → String
  | off => "None"
  | less => "Less"
  | standard => "Default"
  | aggressive => "Aggressive"

/-- The level that a text gives. -/
def read (text : String) : Option OptLevel :=
  (Byte.read (Blank.trim text.toList)).bind ofNumber?

end OptLevel

/-! ## Options -/

/-- The options of a compilation; nothing is optimised or printed unless asked for. -/
structure Options where
  level : OptLevel := .off
  dumpCode : Bool := false
deriving DecidableEq

/-- Something about the options that was ignored. -/
inductive OptionWarning where
  /-- The text gives no level. -/
  | unreadableLevel (text : String)
deriving DecidableEq

/-- A warning in words, its level first. -/
def OptionWarning.message : OptionWarning → String
  | unreadableLevel text =>
    "WARN ignoring PETRA_OPT_LEVEL: expected 0, 1, 2 or 3 value=" ++ text

namespace Options

/-- The level that a variable gives, and the warnings on the way. -/
def readLevel : Option String → OptLevel × List OptionWarning
  | none => (.off, [])
  | some text =>
    match OptLevel.read text with
    | some level => (level, [])
    | none => (.off, [.unreadableLevel text])

/-- Whether a variable asks for the code to be printed: it is set, and not to the empty text. -/
def readDump : Option String → Bool
  | none => false
  | some text => !text.isEmpty

/-- The options that two variables give, and the warnings on the way. -/
def ofVariables (level debug : Option String) : Options × List OptionWarning :=
  let (chosen, warnings) := readLevel level
  ({ level := chosen, dumpCode := readDump debug }, warnings)

/-- The options that the values of two variables give, as the environment holds them. -/
def ofEnvironment (level debug : Option ByteArray) : Options × List OptionWarning :=
  ofVariables (level.bind String.fromUTF8?) (debug.bind String.fromUTF8?)

/-- The options with another level. -/
def withLevel (options : Options) (level : OptLevel) : Options := { options with level }

/-- The options with the printing of code switched on or off. -/
def withDumpCode (options : Options) (dumpCode : Bool) : Options := { options with dumpCode }

end Options

end BlockLang
