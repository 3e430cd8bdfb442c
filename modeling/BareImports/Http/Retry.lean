import BareImports.Cdn.Response
import BareImports.Charset
import BareImports.Log

/-!
# Repeated attempts

A request is attempted until an outcome is final or the attempts are used up.

* `Outcome`: what one attempt comes to;
* `Seconds`: a delay, which doubles after each attempt;
* `Line`: the outcomes to come and what was done so far;
* `Line.request`: the attempts of one request, and its `Conclusion`.
-/

namespace BareImports.Http

/-- What one attempt comes to. -/
inductive Outcome
  /-- A response; without an own URL that of the request is meant. -/
  | response (status : Int) (url : Option String) (body : List UInt8) (charset contentType : Option String)
  /-- No response in time. -/
  | timeout
  /-- No connection. -/
  | refused (message : String)
  /-- Any other accident. -/
  | accident (message : String)

/-- A delay. -/
inductive Seconds
  /-- A whole number of seconds. -/
  | whole (n : Int)
  /-- Any number of seconds. -/
  | real (x : Float)

/-- A delay doubled a number of times. -/
def Seconds.doubled : Seconds → Nat → Seconds
  | whole n, i => whole (n * (Nat.pow 2 i : Nat))
  | real x, i => real (x * Number.intToFloat (Nat.pow 2 i : Nat))

/-- Whether a delay can be doubled a number of times: floating-point numbers end below the power of two with this
exponent, and a greater one has no product with them. -/
def Seconds.canDouble : Seconds → Nat → Bool
  | whole _, _ => true
  | real _, i => i < 1024

/-- A delay as a value. -/
def Seconds.value : Seconds → Value
  | whole n => .int n
  | real x => .float x

/-- The outcomes to come and what was done so far. -/
structure Line where
  /-- The outcomes of the attempts to come. -/
  script : List Outcome
  /-- The URLs of the attempts. -/
  calls : List String := []
  /-- The delays between attempts. -/
  delays : List Seconds := []
  /-- Connections that were opened. -/
  opened : Nat := 0
  /-- Connections that were closed. -/
  closed : Nat := 0
  /-- What was logged. -/
  log : List Log.Entry := []

/-- How a request ends. -/
inductive Conclusion
  /-- With a response. -/
  | answered (r : Cdn.Response)
  /-- With the last of the attempts, for a reason. -/
  | exhausted (attempts : Nat) (reason : String)
  /-- By an accident. -/
  | accident (text : String)
  /-- With a delay that cannot be computed. -/
  | stuck

/-- A conclusion as an answer of the CDN. -/
def Conclusion.answer : Conclusion → Cdn.Answer
  | answered r => .ok r
  | exhausted attempts reason =>
    .error (.refused 0 ("Request failed after " ++ toString attempts ++ " attempts: " ++ reason))
  | accident text => .error (.unexpected text)
  | stuck => .error .numberTooGreat

/-- Whether a conclusion counts as a failed request. -/
def Conclusion.isFailed : Conclusion → Bool
  | exhausted .. => true
  | _ => false

namespace Line

/-- A log entry. -/
def note (l : Line) (e : Log.Entry) : Line := { l with log := l.log ++ [e] }

/-- The fields of every entry about a request. -/
def fields (event target : String) (more : List (String × Value)) : List (String × Value) :=
  [("event", .text event), ("component", .text "http_client"), ("action", .text "GET"), ("target", .text target)] ++ more

/-- The entry about an attempt that begins. -/
def attemptEntry (target : String) (number : Nat) : Log.Entry :=
  ⟨.debug, "HTTP request", [], fields "http_request" target [("attempt", .int number)]⟩

/-- The entry about a response. -/
def responseEntry (target : String) (status : Int) : Log.Entry :=
  ⟨.debug, "HTTP response", [], fields "http_response" target [("status_code", .int status)]⟩

/-- The entry about an attempt that failed. -/
def failureEntry (target reason : String) (number : Nat) : Log.Entry :=
  ⟨.debug, "HTTP attempt failed", [],
    fields "http_exception" target [("outcome", .text reason), ("attempt", .int number)]⟩

/-- The entry about a request that failed. -/
def exhaustedEntry (target reason : String) (attempts : Nat) : Log.Entry :=
  Log.warn "GET %s failed after %d attempts: %s" [.text target, .count attempts, .text reason]

/-- The entries about a character set that is not known. An empty body needs none. -/
def charsetEntries (body : List UInt8) (charset : Option String) : List Log.Entry :=
  match charset with
  | some name =>
    if body.isEmpty || name.isEmpty || (Charset.ofName? name).isSome then []
    else [⟨.debug, "Unknown charset %r, decoding as utf-8", [.text name], []⟩]
  | none => []

/-- What an attempt means: the response, the text of an accident, or the reason why it is repeated. -/
inductive Verdict
  /-- The request has its response. -/
  | answered (r : Cdn.Response)
  /-- The attempt failed. -/
  | failed (reason : String)
  /-- The request ends by an accident. -/
  | accident (text : String)

/-- What an outcome means. A server error counts as a failure unless the attempt is the last one. -/
def judge (url : String) (isLast : Bool) : Outcome → Verdict
  | .response status final body charset contentType =>
    if status ≥ 500 && !isLast then .failed ("HTTP " ++ toString status)
    else .answered ⟨status, final.getD url, Charset.decode body charset, contentType⟩
  | .timeout => .failed "timeout"
  | .refused message => .failed (if message.isEmpty then "ClientError" else message)
  | .accident text => .accident text

/-- What is logged about an outcome before it is judged. -/
def outcomeEntries : Outcome → List Log.Entry
  | .response _ _ body charset _ => charsetEntries body charset
  | _ => []

/-- Takes the next outcome. -/
def take (l : Line) (url : String) : Outcome × Line :=
  let l := { l with calls := l.calls ++ [url] }
  match l.script with
  | o :: script => (o, { l with script })
  | [] => (.accident "", l)

/-- Waits between two attempts. -/
def pause (l : Line) (d : Seconds) : Line := { l with delays := l.delays ++ [d] }

/-- The attempts that are left, after a number of them that failed. -/
def attempts (url target : String) (delay : Seconds) : Nat → Nat → String → Line → Conclusion × Line
  | 0, done, reason, l => (.exhausted done reason, l.note (exhaustedEntry target reason done))
  | left + 1, done, _, l =>
    let (o, l) := (l.note (attemptEntry target (done + 1))).take url
    let l := { l with log := l.log ++ outcomeEntries o }
    match judge url (left == 0) o with
    | .answered r => (.answered r, l.note (responseEntry target r.status))
    | .accident text => (.accident text, l)
    | .failed reason =>
      let l := l.note (failureEntry target reason (done + 1))
      if left == 0 then attempts url target delay left (done + 1) reason l
      else if delay.canDouble done then
        attempts url target delay left (done + 1) reason (l.pause (delay.doubled done))
      else (.stuck, l)

/-- The attempts of one request: at least one. -/
def request (url target : String) (retries : Int) (delay : Seconds) (l : Line) : Conclusion × Line :=
  attempts url target delay (max 1 retries).toNat 0 "" l

end Line

end BareImports.Http
