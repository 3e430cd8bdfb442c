import BareImports.Cdn.Session
import BareImports.Http.Retry
import BareImports.Url.Redact

/-!
# Fetchers

* `Fetcher`: how often requests are attempted, the connection that they use, and how many failed;
* `Fetcher.start`, `Fetcher.stop`: its connection;
* `Fetcher.get`: one request;
* `Fetcher.fetchAll`: calls on a cache whose requests it makes.
-/

namespace BareImports.Http

/-- Which connection a fetcher uses. -/
inductive Connection
  /-- None yet. -/
  | none
  /-- One that was given to it. -/
  | given
  /-- One that it opened. -/
  | own
  deriving BEq, DecidableEq, Repr

/-- Settings and state of a fetcher. -/
structure Fetcher where
  /-- How often a request is attempted. -/
  retries : Int := 3
  /-- The delay before the second attempt. -/
  delay : Seconds := .real 0.3
  /-- The connection. -/
  connection : Connection := .none
  /-- How many requests failed at their last attempt. -/
  failed : Nat := 0

namespace Fetcher

/-- Opens a connection if there is none. -/
def start (f : Fetcher) (l : Line) : Fetcher × Line :=
  match f.connection with
  | .none => ({ f with connection := .own }, { l with opened := l.opened + 1 })
  | _ => (f, l)

/-- Closes the connection if the fetcher opened it. -/
def stop (f : Fetcher) (l : Line) : Fetcher × Line :=
  match f.connection with
  | .own => ({ f with connection := .none }, { l with closed := l.closed + 1 })
  | _ => (f, l)

/-- Makes a request. -/
def get (f : Fetcher) (url : String) (l : Line) : Cdn.Answer × Fetcher × Line :=
  let (f, l) := f.start l
  let target := String.ofList (Url.redact url.toList)
  let (c, l) := l.request url target f.retries f.delay
  (c.answer, { f with failed := f.failed + (if c.isFailed then 1 else 0) }, l)

/-- A request of the cache. -/
def fetch (url : String) : StateM (Fetcher × Line) Cdn.Answer := do
  let (f, l) ← MonadState.get
  let (a, s) := f.get url (l.note ⟨.debug, "Fetching %s", [.text url], []⟩)
  set s
  return a

/-- Calls on a cache, one after the other. -/
def fetchAll (calls : List Cdn.Call) (c : Cdn.Cache) : StateM (Fetcher × Line) (List Cdn.Reply) := do
  let (_, replies) ← calls.foldlM (fun (c, replies) call => do
    let (c, more) ← Cdn.Session.gather fetch c [call]
    return (c, replies ++ more)) (c, [])
  return replies

/-- Calls on a new cache. When they are done the fetcher's own connection is closed, if the cache is to do so. -/
def withCache (f : Fetcher) (base : String) (closes : Bool) (calls : List Cdn.Call) (l : Line) :
    List Cdn.Reply × Fetcher × Line :=
  let (replies, f, l) := (fetchAll calls (.empty base)).run (f, l)
  let (f, l) := if closes then f.stop l else (f, l)
  (replies, f, l)

end Fetcher

end BareImports.Http
