import VpnPi.Async.Task
import VpnPi.Island.Platform
import VpnPi.Island.RateLimit

/-!
# `Island.Auth` — tokens, guards, and which route has which (`core/auth.ts`, `main.ts`)

A guard runs at the start of its route without suspension. It reads and writes the attempt limiter and may
throw; `compared` records, beside that, every comparison of a presented token with a configured one, and in
which header the token came. SHA-256 is a parameter.
-/

namespace VpnPi
namespace Island

open Js Async Task

/-! ## Requests -/

inductive Header where
  | opToken
  | adminToken
  deriving DecidableEq

/-- A token that was compared with the configured one. -/
structure Comparison where
  header    : Header
  presented : JsString
  deriving DecidableEq

structure HttpRequest where
  method     : JsString
  path       : JsString
  /-- `server.requestIP(req)?.address`. -/
  address    : Option JsString
  /-- `x-op-token`, empty when absent. -/
  opToken    : JsString
  /-- `x-admin-token`, empty when absent. -/
  adminToken : JsString

/-- `server.requestIP(req)?.address ?? "?"`, the limiter's key. -/
def HttpRequest.key (req : HttpRequest) : JsString := req.address.getD (js "?")

/-- What the guards read of the context. -/
structure AuthConfig where
  mock       : Bool
  opToken    : JsString
  adminToken : JsString
  /-- `!!ctx.registry`. -/
  registry   : Bool
  /-- `!!ctx.eventStore`. -/
  eventStore : Bool

structure AuthState where
  limiter  : AttemptLimiter
  compared : List Comparison := []

/-- The readings of the clock during one guard: by `locked`, and by `fail`, which takes two. -/
structure Readings where
  locked : Int
  recent : Int
  failed : Int

/-! ## `core/auth.ts` -/

variable (sha256 : JsString → Bytes) (cfg : AuthConfig)

def loopback : List JsString := [js "127.0.0.1", js "::1", js "::ffff:127.0.0.1"]

/-- `tokenOk`, of a token from the given header. -/
def tokenOk (header : Header) (presented expected : JsString) : Task AuthState Exn Bool :=
  if expected = [] ∨ presented = [] then pure false
  else do
    modify fun s => { s with compared := s.compared ++ [⟨header, presented⟩] }
    pure (decide (sha256 presented = sha256 expected))

def operatorOk (ip presentedOpToken : JsString) : Task AuthState Exn Bool :=
  if cfg.mock then pure true
  else if ip ∈ loopback then pure true
  else tokenOk sha256 .opToken presentedOpToken cfg.opToken

def manageOk (ip opTokenHeader adminTokenHeader : JsString) : Task AuthState Exn Bool := do
  let operator ← operatorOk sha256 cfg ip opTokenHeader
  if operator then pure true
  else if cfg.adminToken = [] then pure false
  else tokenOk sha256 .adminToken adminTokenHeader cfg.adminToken

/-! ## The guards -/

def isOperator (req : HttpRequest) : Task AuthState Exn Bool :=
  manageOk sha256 cfg (req.address.getD []) req.opToken req.adminToken

/-- `throw new RateLimited(..)` when the limiter says so. -/
def refuseLocked (ip : JsString) (now : Int) : Task AuthState Exn Unit := do
  let s ← get
  modify fun s => { s with limiter := (s.limiter.locked ip now).2 }
  throwIf (s.limiter.locked ip now).1 (.rateLimited (js "too many attempts — try again later"))

/-- `friend` is the key of `ctx.book.friendByWg0(ip)`. -/
def authorizeShare (selfEd : JsString) (friend : Option JsString) (req : HttpRequest) :
    Task AuthState Exn JsString := do
  let operator ← isOperator sha256 cfg req
  if operator then pure selfEd
  else ofExcept (orThrow (.forbidden (js "not a friend: " ++ req.address.getD [])) friend)

def requireOperator (req : HttpRequest) (t : Readings) : Task AuthState Exn Unit := do
  let ip := req.key
  refuseLocked ip t.locked
  let operator ← isOperator sha256 cfg req
  if operator then modify fun s => { s with limiter := s.limiter.reset ip }
  else do
    modify fun s => { s with limiter := s.limiter.fail ip t.recent t.failed }
    ofExcept (.error (.forbidden (js "operator-only endpoint")))

def requireAdmin (req : HttpRequest) (t : Readings) : Task AuthState Exn Unit :=
  if cfg.mock then pure ()
  else do
    throwIf (cfg.adminToken = []) (.forbidden (js "admin token not configured"))
    let ip := req.key
    refuseLocked ip t.locked
    let good ← tokenOk sha256 .adminToken req.adminToken cfg.adminToken
    if good then modify fun s => { s with limiter := s.limiter.reset ip }
    else do
      modify fun s => { s with limiter := s.limiter.fail ip t.recent t.failed }
      ofExcept (.error (.forbidden (js "bad admin token")))

/-! ## The routes -/

inductive Guard where
  | unguarded
  | operator
  | admin
  | share
  deriving DecidableEq

inductive PathPattern where
  | exact (path : JsString)
  /-- `/^pre(.+)$/`. -/
  | below (pre : JsString)
  /-- `/^pre(\d+)post$/`. -/
  | numbered (pre post : JsString)

def PathPattern.matches (p : PathPattern) (path : JsString) : Bool :=
  match p with
  | exact q => path = q
  | below pre => pre.isPrefixOf path && pre.length < path.length
  | numbered pre post =>
      let rest := path.drop pre.length
      let digits := rest.takeWhile isDigit
      pre.isPrefixOf path && !digits.isEmpty && rest.drop digits.length = post

structure Route where
  enabled : Bool
  method  : JsString
  path    : PathPattern
  guard   : Guard

def GET : JsString := js "GET"

def POST : JsString := js "POST"

def DELETE : JsString := js "DELETE"

/-- The tests of `route`, in order. -/
def routes : List Route :=
  [⟨true, GET, .exact (js "/api/health"), .unguarded⟩,
   ⟨true, GET, .exact (js "/api/home"), .operator⟩,
   ⟨true, GET, .exact (js "/api/gate"), .unguarded⟩,
   ⟨cfg.registry, POST, .exact (js "/registry/announce"), .unguarded⟩,
   ⟨cfg.registry, GET, .below (js "/registry/resolve/"), .unguarded⟩,
   ⟨cfg.eventStore, POST, .exact (js "/events/report"), .unguarded⟩,
   ⟨cfg.eventStore, GET, .exact (js "/admin/events"), .admin⟩,
   ⟨true, GET, .exact (js "/admin/friends"), .admin⟩,
   ⟨true, DELETE, .below (js "/admin/friends/"), .admin⟩,
   ⟨true, GET, .exact (js "/admin/firstrun"), .unguarded⟩,
   ⟨true, POST, .exact (js "/admin/canary"), .admin⟩,
   ⟨true, GET, .exact (js "/admin/gate/log"), .admin⟩,
   ⟨true, POST, .exact (js "/admin/gate/close"), .admin⟩,
   ⟨true, POST, .exact (js "/api/gate/open"), .operator⟩,
   ⟨true, POST, .exact (js "/admin/canary/mint"), .unguarded⟩,
   ⟨true, GET, .exact (js "/api/friends"), .operator⟩,
   ⟨true, POST, .exact (js "/api/friends/token"), .operator⟩,
   ⟨true, POST, .exact (js "/api/friends/receive"), .operator⟩,
   ⟨true, POST, .exact (js "/api/friends/accept"), .operator⟩,
   ⟨true, POST, .exact (js "/api/friends/confirm"), .operator⟩,
   ⟨true, POST, .exact (js "/api/friends/add"), .operator⟩,
   ⟨true, POST, .exact (js "/api/friends/request"), .unguarded⟩,
   ⟨true, POST, .exact (js "/api/friends/accept-inbound"), .unguarded⟩,
   ⟨true, GET, .exact (js "/api/identity"), .operator⟩,
   ⟨true, DELETE, .below (js "/api/friends/"), .operator⟩,
   ⟨true, POST, .exact (js "/api/friends/revoke-inbound"), .unguarded⟩,
   ⟨true, GET, .exact (js "/api/messages"), .operator⟩,
   ⟨true, POST, .exact (js "/api/messages"), .operator⟩,
   ⟨true, POST, .exact (js "/api/messages/inbound"), .unguarded⟩,
   ⟨true, GET, .exact (js "/api/files"), .share⟩,
   ⟨true, POST, .exact (js "/api/files"), .share⟩,
   ⟨true, GET, .numbered (js "/api/files/") (js "/download"), .share⟩,
   ⟨true, DELETE, .numbered (js "/api/files/") [], .share⟩]

/-- The guard of the route that handles a request; what is left serves the web UI or a 404 to anyone. -/
def guardOf (req : HttpRequest) : Guard :=
  match (routes cfg).find? fun r => r.enabled && decide (r.method = req.method) && r.path.matches req.path with
  | some r => r.guard
  | none => .unguarded

/-- A request that reaches the daemon. -/
structure Visit where
  req      : HttpRequest
  readings : Readings
  friend   : Option JsString

/-- The guard of a request. -/
def runGuard (selfEd : JsString) (v : Visit) : Task AuthState Exn Unit :=
  match guardOf cfg v.req with
  | .unguarded => pure ()
  | .operator => requireOperator sha256 cfg v.req v.readings
  | .admin => requireAdmin sha256 cfg v.req v.readings
  | .share => do
      let _ ← authorizeShare sha256 cfg selfEd v.friend v.req
      pure ()

/-- The state a guard leaves, from a limiter. -/
def visit (selfEd : JsString) (lim : AttemptLimiter) (v : Visit) : AuthState :=
  ((runGuard sha256 cfg selfEd v).run ⟨lim, []⟩).2

/-- A sequence of requests, each with the comparisons its guard makes. -/
def serve (selfEd : JsString) : AttemptLimiter → List Visit → List (Visit × List Comparison)
  | _, [] => []
  | lim, v :: vs =>
      let s := visit sha256 cfg selfEd lim v
      (v, s.compared) :: serve selfEd s.limiter vs

/-! ## What a comparison decides and records -/

/-- `tokenOk`, as a predicate. -/
def TokenMatches (presented expected : JsString) : Prop :=
  expected ≠ [] ∧ presented ≠ [] ∧ sha256 presented = sha256 expected

instance (presented expected : JsString) : Decidable (TokenMatches sha256 presented expected) := by
  unfold TokenMatches
  infer_instance

/-- What `tokenOk` records. -/
def recorded (header : Header) (presented expected : JsString) : List Comparison :=
  if expected = [] ∨ presented = [] then [] else [⟨header, presented⟩]

theorem run_tokenOk (header : Header) (presented expected : JsString) (s : AuthState) :
    (tokenOk sha256 header presented expected).run s =
      (.ok (decide (TokenMatches sha256 presented expected)),
        { s with compared := s.compared ++ recorded header presented expected }) := by
  unfold tokenOk recorded
  by_cases h : expected = [] ∨ presented = []
  · have hno : ¬TokenMatches sha256 presented expected := fun hm => h.elim hm.1 hm.2.1
    rw [if_pos h, if_pos h, decide_eq_false hno, List.append_nil]
    rfl
  · obtain ⟨h1, h2⟩ := not_or.mp h
    have hiff : TokenMatches sha256 presented expected ↔ sha256 presented = sha256 expected :=
      ⟨fun hm => hm.2.2, fun he => ⟨h1, h2, he⟩⟩
    rw [if_neg h, if_neg h, decide_eq_decide.mpr hiff]
    rfl

/-- The comparisons of `isOperator` away from the loopback interface: the operator token, and the admin token
    if that fails. -/
theorem run_isOperator {req : HttpRequest} (hmock : cfg.mock = false) (hip : req.address.getD [] ∉ loopback)
    (hadmin : cfg.adminToken ≠ []) (s : AuthState) :
    (isOperator sha256 cfg req).run s =
      if TokenMatches sha256 req.opToken cfg.opToken then
        (.ok true, { s with compared := s.compared ++ recorded .opToken req.opToken cfg.opToken })
      else
        (.ok (decide (TokenMatches sha256 req.adminToken cfg.adminToken)),
          { s with compared := s.compared ++ recorded .opToken req.opToken cfg.opToken
                    ++ recorded .adminToken req.adminToken cfg.adminToken }) := by
  unfold isOperator manageOk operatorOk
  rw [run_bind, if_neg (by simp [hmock]), if_neg hip, run_tokenOk]
  by_cases h : TokenMatches sha256 req.opToken cfg.opToken
  · rw [if_pos h, decide_eq_true h]
    rfl
  · rw [if_neg h, decide_eq_false h]
    show Task.run (if cfg.adminToken = [] then _ else _) _ = _
    rw [if_neg hadmin, run_tokenOk]

theorem run_refuseLocked_bind {α : Type} (ip : JsString) (now : Int) (f : Unit → Task AuthState Exn α)
    (s : AuthState) :
    (refuseLocked ip now >>= f).run s =
      if (s.limiter.locked ip now).1 then
        (.error (.rateLimited (js "too many attempts — try again later")),
          { s with limiter := (s.limiter.locked ip now).2 })
      else (f ()).run { s with limiter := (s.limiter.locked ip now).2 } := by
  have hrun : (refuseLocked ip now).run s =
      (throwIf (s.limiter.locked ip now).1 (.rateLimited (js "too many attempts — try again later"))).run
        { s with limiter := (s.limiter.locked ip now).2 } := rfl
  rw [run_bind, hrun]
  cases (s.limiter.locked ip now).1 with
  | true => rfl
  | false => rfl

end Island
end VpnPi
