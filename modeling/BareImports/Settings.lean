import BareImports.Files.Tree
import BareImports.Http.Fetcher
import BareImports.ImportMap
import BareImports.Json.Reader
import BareImports.Value.Shown
import BareImports.Yaml.Reading

/-!
# Settings

Defaults, a settings file and what the caller asks for, each overriding the one before.

* `Settings.load`: the mapping that a file holds, none of its pairs if there is a fault that callers provide for;
* `Settings`; `Settings.ofPairs`: the settings of a mapping;
* `Settings.Overrides`, `Settings.effective`: the settings that count;
* `Settings.fetcher`, `Settings.cacheBase`: what a run needs of them.
-/

namespace BareImports

open Text Files

/-- Settings. -/
structure Settings where
  /-- The base URL of the CDN. -/
  cdnUrl : String := "https://unpkg.com/"
  /-- How many seconds a request may take. -/
  timeout : Float := 30.0
  /-- How often a request is attempted. -/
  retries : Int := 3
  /-- The delay before the second attempt, in seconds. -/
  retryDelay : Float := 0.3
  /-- The pairs of the import map. -/
  importMap : List (Value × Value) := []
  /-- The name of the level from which on entries are logged. -/
  logLevel : String := "INFO"
  /-- The path of a file for the log. -/
  logFile : Option String := none
  deriving Inhabited

namespace Settings

/-! ## Files -/

/-- A mapping, the warnings on the way to it, or a fault. -/
abbrev Loading (α : Type) := Except (Log.Fault × List Log.Entry) (α × List Log.Entry)

/-- Why a YAML text is refused. -/
def yamlFault : Yaml.Fault → Log.Fault
  | .malformed => .notYaml
  | .badValue => .badValue
  | .tooGreat => .tooGreat
  | .noDigits => .noDigits
  | .noTruthValue => .noTruthValue
  | .noMoment => .noMoment

/-- Why a JSON text is refused. -/
def jsonFault : Json.Fault → Log.Fault
  | .malformed => .notJson
  | .tooManyDigits => .badValue

/-- Whether a file that cannot be read for this reason counts as empty. -/
def isForgiven : Log.Fault → Bool
  | .notJson | .notYaml | .notUtf8 | .badValue | .notAccessible => true
  | .badType | .tooGreat | .noDigits | .noTruthValue | .noMoment => false

/-- Whether a path is that of a JSON file. -/
def isJson (path : String) : Bool := endsWith ".json" (toLower path).toList

/-- The value that a file holds. -/
def readValue (t : Files.Tree) (path : String) : Except Log.Fault Value := do
  let cs ← t.text path.toList
  if isJson path then (Json.read (String.ofList cs)).mapError jsonFault
  else (Yaml.read cs).mapError yamlFault

/-- The pairs of the mapping that a file holds. -/
def load (t : Files.Tree) (path : Option String) : Loading (List (Value × Value)) :=
  match path with
  | none => .ok ([], [])
  | some path =>
    if path.isEmpty then .ok ([], [])
    else if !t.isFile path.toList then .ok ([], [Log.warn "Config file not found: %s" [.text path]])
    else match readValue t path with
      | .ok (.map kvs) => .ok (kvs, [])
      | .ok _ => .ok ([], [Log.warn "Ignoring config %s: expected a mapping" [.text path]])
      | .error f =>
        if isForgiven f then .ok ([], [Log.warn "Failed to load config %s: %s" [.text path, .fault f]])
        else .error (f, [])

/-! ## From a mapping -/

/-- The value of a key that counts as given. -/
def given? (kvs : List (Value × Value)) (key : String) : Option Value := (Value.lookup? key kvs).filter Value.truthy

/-- The value of a key that is not null. -/
def present? (kvs : List (Value × Value)) (key : String) : Option Value :=
  (Value.lookup? key kvs).filter fun v => match v with
    | .null => false
    | _ => true

/-- What a conversion makes of a value that is there, else a default. -/
def convertOr {α : Type} (d : α) (f : Value → Except Log.Fault α) : Option Value → Except Log.Fault α
  | some v => f v
  | none => .ok d

/-- The settings of a mapping other than the import map. -/
def ofScalars (kvs : List (Value × Value)) : Except Log.Fault Settings := do
  let d : Settings := {}
  return {
    cdnUrl := ← convertOr d.cdnUrl Value.asText (given? kvs "cdn_url")
    timeout := ← convertOr d.timeout Value.asFloat (present? kvs "timeout")
    retries := ← convertOr d.retries Value.asInt (present? kvs "retries")
    retryDelay := ← convertOr d.retryDelay Value.asFloat (present? kvs "retry_delay")
    logLevel := ← convertOr d.logLevel (fun v => v.asText.map toUpper) (given? kvs "log_level")
    logFile := ← convertOr d.logFile (fun v => v.asText.map some) (given? kvs "log_file") }

/-- The settings of a mapping. The import map stands in it, or in the file that it names. -/
def ofPairs (t : Files.Tree) (kvs : List (Value × Value)) : Loading Settings :=
  match ofScalars kvs with
  | .error f => .error (f, [])
  | .ok s => match Value.lookup? "import_map" kvs with
    | some (.map m) => .ok ({ s with importMap := m }, [])
    | some (.text path) => (load t path).map fun (m, log) => ({ s with importMap := m }, log)
    | _ => .ok (s, [])

/-! ## From a caller -/

/-- What a caller asks for. -/
structure Overrides where
  /-- The path of the settings file. -/
  config : Option String := none
  /-- The base URL of the CDN. -/
  cdnUrl : Option String := none
  /-- How many seconds a request may take. -/
  timeout : Option Float := none
  /-- How often a request is attempted. -/
  retries : Option Int := none
  /-- The path of the import map. -/
  importMap : Option String := none
  /-- The name of the level from which on entries are logged. -/
  logLevel : Option String := none
  /-- The path of a file for the log. -/
  logFile : Option String := none
  deriving Inhabited

/-- Continues a loading, with the warnings so far in front. -/
def Loading.andThen {α β : Type} (x : Loading α) (f : α → Loading β) : Loading β :=
  match x with
  | .error e => .error e
  | .ok (a, log) => match f a with
    | .ok (b, more) => .ok (b, log ++ more)
    | .error (e, more) => .error (e, log ++ more)

/-- Settings with a text in place of one of them, if it is not empty. -/
def orGiven (d : String) (s : Option String) : String := (Log.given? s).getD d

/-- Settings with what a caller asks for in place of them. -/
def override (t : Files.Tree) (o : Overrides) (s : Settings) : Loading Settings :=
  let s := { s with
    cdnUrl := orGiven s.cdnUrl o.cdnUrl
    timeout := o.timeout.getD s.timeout
    retries := o.retries.getD s.retries
    logLevel := (Log.given? o.logLevel).elim s.logLevel toUpper
    logFile := Log.given? o.logFile <|> s.logFile }
  match Log.given? o.importMap with
  | none => .ok (s, [])
  | some path => Loading.andThen (load t path) fun m => .ok ({ s with importMap := m }, [])

/-- The settings that count for a caller. -/
def effective (t : Files.Tree) (o : Overrides) : Loading Settings :=
  Loading.andThen (load t o.config) fun kvs => Loading.andThen (ofPairs t kvs) (override t o)

/-! ## What a run needs -/

/-- The fetcher of the settings. -/
def fetcher (s : Settings) : Http.Fetcher := { retries := s.retries, delay := .real s.retryDelay }

/-- How often the fetcher of the settings attempts a request. -/
def attempts (s : Settings) : Int := max 1 s.retries

/-- The base URL of the cache of the settings. -/
def cacheBase (s : Settings) : String := Cdn.withFinalSlash s.cdnUrl

/-- The import map of the settings, with warnings about what is not usable. -/
def mapping (s : Settings) : ImportMap × List Log.Entry := ImportMap.ofPairs s.importMap

end Settings

end BareImports
