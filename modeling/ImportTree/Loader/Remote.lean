import ImportTree.Address.Url.Read
import ImportTree.Loader.Basic
import ImportTree.Text.ByteOrder

/-!
# Documents on the web

A loader that requests documents from servers. A request is repeated when it got no response or when
the server reports an error of its own; any other failure is final.
-/
namespace ImportTree.Remote

/-! ## Exchanges -/

/-- What a server sends back. -/
structure Response where
  status : Nat := 200
  body : List UInt8 := []
  /-- Whether all of the body came. -/
  complete : Bool := true
deriving DecidableEq, Repr

/-- What becomes of one request. -/
inductive Exchange where
  | response (r : Response)
  /-- There is no connection, or it ends before there is a response. -/
  | broken
deriving DecidableEq, Repr

/-- What becomes of the first, second, … request for an address. -/
abbrev Network := String → Nat → Exchange

/-- The network in which nothing answers. -/
def silence : Network :=
  fun _ _ => .broken

/-! ## Requests -/

/-- What the request for an address asks the server for, unless the address is none of the web. -/
def target? (address : String) : Option (List Char) :=
  match Address.Url.read? none address.toList with
  | none => none
  | some url =>
    if url.scheme = "http".toList ∨ url.scheme = "https".toList then
      some (url.path.text ++ (match url.query? with | some query => '?' :: query | none => []))
    else none

/-- The first line of a request. -/
def requestLine (target : List Char) : String :=
  "GET " ++ String.ofList target ++ " HTTP/1.1"

/-! ## Responses -/

def Response.isFinal (r : Response) : Bool :=
  r.status == 101 || (200 ≤ r.status && r.status < 1000)

/-- Whether a response with this status has a body. -/
def Response.hasBody (r : Response) : Bool :=
  r.status != 101 && r.status != 204 && r.status != 304

/-- Whether the server puts the error down to the request. -/
def Response.isRejected (r : Response) : Bool :=
  400 ≤ r.status && r.status < 500

/-- Whether the server puts the error down to itself. -/
def Response.isServerError (r : Response) : Bool :=
  500 ≤ r.status && r.status < 600

/-- What one request comes to. -/
inductive Verdict where
  | text (text : String)
  | final (message : String)
  /-- A failure that another request may not meet. -/
  | passing (message : String)
deriving DecidableEq, Repr

def judge (address : String) : Exchange → Verdict
  | .broken => .passing ("Request to " ++ address ++ " failed")
  | .response r =>
    if !r.isFinal then .passing ("Request to " ++ address ++ " failed")
    else if r.isServerError then .passing ("Server rejected request for " ++ address)
    else if r.isRejected then .final ("Server rejected request for " ++ address)
    else if !r.hasBody then .text ""
    else if r.complete then .text (String.ofList (Text.decodeMarked r.body))
    else .final ("Failed to read response body from " ++ address)

/-- Requests an address, and repeats the request up to the given number of times. The answer comes with
the number of requests that were sent. -/
def attempts (network : Network) (address : String) : Nat → Nat → Except LoadFailure String × Nat
  | retries, sent =>
    match judge address (network address sent), retries with
    | .text text, _ => (.ok text, sent + 1)
    | .final message, _ => (.error { message }, sent + 1)
    | .passing message, 0 => (.error { message }, sent + 1)
    | .passing _, retries + 1 => attempts network address retries (sent + 1)

theorem attempts_sent_le (network : Network) (address : String) (retries sent : Nat) :
    (attempts network address retries sent).2 ≤ sent + retries + 1 := by
  induction retries generalizing sent with
  | zero =>
    unfold attempts
    cases judge address (network address sent) <;> exact Nat.le_refl _
  | succ retries ih =>
    unfold attempts
    cases judge address (network address sent) with
    | text text => simp only; omega
    | final message => simp only; omega
    | passing message => exact Nat.le_trans (ih (sent + 1)) (by omega)

/-- Requests an address, unless it is none of the web. -/
def fetch (network : Network) (retries : Nat) (address : String) : Except LoadFailure String × Nat :=
  match target? address with
  | none => (.error { message := "Request to " ++ address ++ " failed" }, 0)
  | some _ => attempts network address retries 0

/-- The number of times that a request is repeated unless it is set otherwise. -/
def defaultRetries : Nat :=
  3

/-- How many documents an analysis takes from the web at most. -/
def capacity : Nat :=
  UInt32.size

def loader (network : Network) (retries : Nat) : Loader where
  answer address := (fetch network retries address).1
  extent := capacity

end ImportTree.Remote
