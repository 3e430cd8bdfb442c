import BareImports.Arguments.Word
import BareImports.Settings

/-!
# Commands

* `Command`: a build of a folder or the typings of some sources, with `Options`;
* `Command.parse`: the command that the words of a command line give.
-/

namespace BareImports.Arguments

open Text

/-- What both commands can be told. -/
structure Options where
  /-- The output folder. -/
  output : String
  /-- What overrides the settings file. -/
  overrides : Settings.Overrides := {}
  /-- Whether diagnostics count as failure. -/
  failOnWarnings : Bool := false

/-- A command. -/
inductive Command
  /-- Rewrites the modules of a folder. -/
  | build (source : String) (options : Options)
  /-- Collects the typings that some sources and standard libraries need. -/
  | types (files : List String) (manifest : Option String) (libs : List String) (options : Options)

/-- The options of a command. -/
def Command.options : Command → Options
  | build _ o => o
  | types _ _ _ o => o

/-- The spellings of the request for help. -/
def helpNames : Names := [("-h", .help), ("--help", .help)]

/-- The spellings of the options of both commands. -/
def commonNames : Names :=
  helpNames ++ [("-o", .output), ("--output", .output), ("-c", .config), ("--config", .config),
    ("--cdn-url", .cdnUrl), ("--timeout", .timeout), ("--retries", .retries), ("--import-map", .importMap),
    ("--loglevel", .logLevel), ("--logfile", .logFile), ("--error-on-warnings", .failOnWarnings)]

/-- The spellings of the options of the command that collects typings. -/
def typesNames : Names := commonNames ++ [("--package-json", .manifest), ("--lib", .lib)]

/-- A command under way. -/
structure Draft where
  /-- The output folder. -/
  output : Option String := none
  /-- What overrides the settings file. -/
  overrides : Settings.Overrides := {}
  /-- Whether diagnostics count as failure. -/
  failOnWarnings : Bool := false
  /-- The path of a manifest. -/
  manifest : Option String := none
  /-- Standard libraries. -/
  libs : List String := []
  /-- The words that are no options. -/
  words : Option (List String) := none
  /-- Whether a word was left over. -/
  leftover : Bool := false

namespace Draft

/-- A level that an option may name. -/
def level? (s : String) : Option String :=
  let name := toUpper s
  if [Log.Level.debug, .info, .warning, .error, .critical].any (·.name == name) then some name else none

/-- A draft with one more option. -/
def set (d : Draft) : Setting → Except Stop Draft
  | (.help, _) => .error .help
  | (.failOnWarnings, _) => .ok { d with failOnWarnings := true }
  | (k, v) => do
    let s := String.ofList (v.getD [])
    let o := d.overrides
    let orUsage := fun {α : Type} (x : Option α) => (x.elim (.error .usage) fun x => .ok (some x) : Except Stop (Option α))
    match k with
    | .output => return { d with output := some s }
    | .manifest => return { d with manifest := some s }
    | .lib => return { d with libs := d.libs ++ [s] }
    | .config => return { d with overrides := { o with config := some s } }
    | .cdnUrl => return { d with overrides := { o with cdnUrl := some s } }
    | .importMap => return { d with overrides := { o with importMap := some s } }
    | .logFile => return { d with overrides := { o with logFile := some s } }
    | .timeout => return { d with overrides := { o with timeout := ← orUsage (Number.readFloat? s) } }
    | .retries => return { d with overrides := { o with retries := ← orUsage (Number.readInt? s) } }
    | .logLevel => return { d with overrides := { o with logLevel := ← orUsage (level? s) } }
    | .help | .failOnWarnings => return d

/-- Whether a word is the divider. -/
def isDivider : Word → Bool
  | .divider => true
  | _ => false

/-- Whether a word is an option. -/
def isOption : Word → Bool
  | .option _ => true
  | _ => false

/-- The text of a word that is no option. -/
def wordText : Word → String
  | .plain s => String.ofList s
  | _ => "--"

/-- How many of some words that are no options a command takes: one, or all if it takes many; dividers around them do
not count. -/
def taken (many : Bool) (ws : List Word) : Nat :=
  let front := (ws.takeWhile isDivider).length
  match ws.drop front with
  | [] => 0
  | _ :: rest => if many then ws.length else front + 1 + (rest.takeWhile isDivider).length

/-- A draft with words that are no options: the command takes what it can if it has none yet. -/
def takeWords (d : Draft) (many : Bool) (ws : List Word) : Draft :=
  let n := if d.words.isSome then 0 else taken many ws
  let texts := ((ws.take n).map wordText).erase "--"
  { d with
    words := if n == 0 then d.words else some texts
    leftover := d.leftover || n < ws.length }

/-- A draft with all words. -/
def fill (names : Names) (many : Bool) : Nat → Draft → List Word → Except Stop Draft
  | 0, d, _ => .ok d
  | fuel + 1, d, ws => do
    let d := d.takeWords many (ws.takeWhile fun w => !isOption w)
    match ws.dropWhile fun w => !isOption w with
    | .option g :: rest =>
      let e ← g.expand names rest ((g.joined.elim 0 (·.2.length)) + 2)
      let d ← e.settings.foldlM set d
      fill names many fuel { d with leftover := d.leftover || e.leftover } e.rest
    | _ => return d

/-- The draft that the words behind a command's name make, nothing left over. -/
def ofTexts (names : Names) (many : Bool) (texts : List String) : Except Stop (Draft × Options × List String) := do
  let ws ← Word.ofTexts names texts
  let d ← fill names many (ws.length + 1) {} ws
  match d.output, d.words with
  | some output, some words =>
    if d.leftover then throw .usage
    else return (d, ⟨output, d.overrides, d.failOnWarnings⟩, words)
  | _, _ => throw .usage

end Draft

namespace Command

/-- The command whose name comes first, with the words behind it. -/
def ofName (name : String) (texts : List String) : Except Stop Command :=
  match name with
  | "build" => do
    let (_, options, words) ← Draft.ofTexts commonNames false texts
    return .build (words.headD "") options
  | "types" => do
    let (d, options, words) ← Draft.ofTexts typesNames true texts
    return .types words d.manifest d.libs options
  | _ => .error .usage

/-- The command that the words of a command line give. Options before its name can only ask for help, and no divider
may stand there. -/
def parse : List String → Except Stop Command
  | [] => .error .usage
  | t :: texts => do
    if t == "--" then throw .usage
    match ← option? helpNames t.toList with
    | none => ofName t texts
    | some g =>
      let e ← g.expand helpNames [] (t.length + 2)
      if e.settings.isEmpty then
        let _ ← parse texts
        throw .usage
      else throw .help

end Command

end BareImports.Arguments
