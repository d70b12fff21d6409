import VpnPi.Async.Service
import VpnPi.Island.LimiterHistory
import VpnPi.Island.Lockout

/-!
# `Island.Guarded` — what the guards answer, over a whole run (`main.ts`, `core/auth.ts`, `core/ratelimit.ts`)

A guard decides a request by what the request brings (`verdict`), and by the limiter. `prescribed` is the same decision
from the answers that were given before: an address is refused as rate-limited exactly when ten of its requests were
refused as forbidden within five minutes and none has succeeded since. `guard_prescribed` says that the guards answer so,
on a clock that never goes back; what other addresses did plays no part.
-/

namespace VpnPi
namespace Island

open Js Async Task

variable (sha256 : JsString → Bytes) (cfg : AuthConfig) (selfEd : JsString)

/-- A guard's answer, and the limiter it leaves. -/
def guardCall : Service AttemptLimiter Visit (Except Exn Unit) := fun lim v =>
  let (r, s) := (runGuard sha256 cfg selfEd v).run ⟨lim, []⟩
  (r, s.limiter)

/-! ## The request by itself -/

/-- Operator or admin, of this node. -/
def IsOperator (req : HttpRequest) : Prop :=
  cfg.mock = true ∨ loopback.contains (req.address.getD []) = true ∨ TokenMatches sha256 req.opToken cfg.opToken ∨
    TokenMatches sha256 req.adminToken cfg.adminToken

instance (req : HttpRequest) : Decidable (IsOperator sha256 cfg req) := by
  unfold IsOperator
  infer_instance

/-- What a request comes to. -/
inductive Verdict where
  /-- The limiter is not asked. -/
  | free (r : Except Exn Unit)
  /-- The limiter is asked first, and told afterwards; a text refuses. -/
  | limited (refusal : Option JsString)

def verdict (v : Visit) : Verdict :=
  match guardOf cfg v.req with
  | .unguarded => .free (.ok ())
  | .operator => .limited (if IsOperator sha256 cfg v.req then none else some (js "operator-only endpoint"))
  | .admin =>
      if cfg.mock then .free (.ok ())
      else if cfg.adminToken = [] then .free (.error (.forbidden (js "admin token not configured")))
      else .limited (if TokenMatches sha256 v.req.adminToken cfg.adminToken then none else some (js "bad admin token"))
  | .share =>
      if IsOperator sha256 cfg v.req ∨ v.friend.isSome then .free (.ok ())
      else .free (.error (.forbidden (js "not a friend: " ++ v.req.address.getD [])))

namespace Verdict

def answer (locked : Bool) : Verdict → Except Exn Unit
  | free r => r
  | limited refusal =>
      if locked then .error (.rateLimited (js "too many attempts — try again later"))
      else match refusal with
        | none => .ok ()
        | some text => .error (.forbidden text)

/-- What the limiter is told. -/
def record (ip : JsString) (t : Readings) (lim : AttemptLimiter) : Verdict → AttemptLimiter
  | free _ => lim
  | limited refusal =>
      let (locked, lim) := lim.locked ip t.locked
      if locked then lim else settle ip t refusal.isNone lim

end Verdict

/-! ## The answers so far -/

/-- The failures to an address's name, after one more answer to anyone. -/
def noted (ip : JsString) (failures : List Int) (e : Visit × Except Exn Unit) : List Int :=
  if e.1.req.key = ip then
    match verdict sha256 cfg e.1, e.2 with
    | .limited _, .ok () => []
    | .limited _, .error (.forbidden _) => failures ++ [e.1.readings.failed]
    | _, _ => failures
  else failures

/-- When an address was refused as forbidden since its last success. -/
def refusals (ip : JsString) (tr : List (Visit × Except Exn Unit)) : List Int := tr.foldl (noted sha256 cfg ip) []

/-- The answer to a request, from the answers given before. -/
def prescribed (tr : List (Visit × Except Exn Unit)) (v : Visit) : Except Exn Unit :=
  (verdict sha256 cfg v).answer
    (decide (10 ≤ (refusals sha256 cfg v.req.key tr).countP fun t => t > v.readings.locked - 300000))

variable {sha256 cfg selfEd}

/-! ## The guards decide by the verdict -/

theorem run_isOperator_eq (req : HttpRequest) (s : AuthState) : ∃ cs,
    (isOperator sha256 cfg req).run s = (.ok (decide (IsOperator sha256 cfg req)), { s with compared := s.compared ++ cs }) := by
  unfold isOperator manageOk operatorOk
  by_cases hmock : cfg.mock = true
  · have hyes : IsOperator sha256 cfg req := .inl hmock
    refine ⟨[], ?_⟩
    rw [if_pos hmock, decide_eq_true hyes, List.append_nil]
    rfl
  by_cases hip : req.address.getD [] ∈ loopback
  · have hyes : IsOperator sha256 cfg req := .inr (.inl (List.contains_iff_mem.mpr hip))
    refine ⟨[], ?_⟩
    rw [if_neg hmock, if_pos hip, decide_eq_true hyes, List.append_nil]
    rfl
  rw [if_neg hmock, if_neg hip, run_bind, run_tokenOk]
  by_cases hop : TokenMatches sha256 req.opToken cfg.opToken
  · have hyes : IsOperator sha256 cfg req := .inr (.inr (.inl hop))
    refine ⟨recorded .opToken req.opToken cfg.opToken, ?_⟩
    rw [decide_eq_true hop, decide_eq_true hyes]
    rfl
  · have hiff : IsOperator sha256 cfg req ↔ TokenMatches sha256 req.adminToken cfg.adminToken := by
      simp [IsOperator, hmock, hip, hop]
    rw [decide_eq_false hop, decide_eq_decide.mpr hiff]
    show ∃ cs, Task.run (if cfg.adminToken = [] then _ else _) _ = _
    by_cases hadmin : cfg.adminToken = []
    · refine ⟨recorded .opToken req.opToken cfg.opToken, ?_⟩
      rw [if_pos hadmin, decide_eq_false fun h => h.1 hadmin]
      rfl
    · refine ⟨recorded .opToken req.opToken cfg.opToken ++ recorded .adminToken req.adminToken cfg.adminToken, ?_⟩
      rw [if_neg hadmin, run_tokenOk, ← List.append_assoc]

/-- The limiter is asked, and then told what came of the request. -/
theorem run_limited (text : JsString) {ip : JsString} {t : Readings} {lim : AttemptLimiter} {b : Bool} {cs : List Comparison}
    {ask : Task AuthState Exn Bool}
    (h : ask.run ⟨(lim.locked ip t.locked).2, []⟩ = (.ok b, ⟨(lim.locked ip t.locked).2, cs⟩)) :
    let x := (do
      refuseLocked ip t.locked
      let good ← ask
      if good then modify fun s => { s with limiter := s.limiter.reset ip }
      else do
        modify fun s => { s with limiter := s.limiter.fail ip t.recent t.failed }
        ofExcept (.error (.forbidden text)) : Task AuthState Exn Unit)
    let verdict := Verdict.limited (if b then none else some text)
    (x.run ⟨lim, []⟩).1 = verdict.answer (lim.locked ip t.locked).1 ∧
      (x.run ⟨lim, []⟩).2.limiter = verdict.record ip t lim := by
  dsimp only [Verdict.record]
  rw [run_refuseLocked_bind]
  cases (lim.locked ip t.locked).1 with
  | true =>
      constructor
      · rfl
      · rfl
  | false =>
      rw [if_neg Bool.false_ne_true, run_bind]
      simp only [h]
      cases b with
      | true => exact ⟨rfl, rfl⟩
      | false => exact ⟨rfl, rfl⟩

/-- **A guard** answers by the verdict on the request and by whether the limiter has locked its address. -/
theorem guardCall_eq (lim : AttemptLimiter) (v : Visit) :
    guardCall sha256 cfg selfEd lim v =
      ((verdict sha256 cfg v).answer (lim.locked v.req.key v.readings.locked).1,
        (verdict sha256 cfg v).record v.req.key v.readings lim) := by
  unfold guardCall runGuard verdict
  -- two guards look at the limiter first and record after; the other two never touch it
  cases guardOf cfg v.req with
  | unguarded => rfl
  | operator =>
      obtain ⟨cs, h⟩ := @run_isOperator_eq sha256 cfg v.req ⟨(lim.locked v.req.key v.readings.locked).2, []⟩
      obtain ⟨hanswer, hrecord⟩ := run_limited (js "operator-only endpoint") h
      simp only [decide_eq_true_eq] at hanswer hrecord
      exact Prod.ext hanswer hrecord
  | admin =>
      simp only [requireAdmin]
      by_cases hmock : cfg.mock = true
      · rw [if_pos hmock, if_pos hmock]
        rfl
      rw [if_neg hmock, if_neg hmock]
      by_cases hadmin : cfg.adminToken = []
      · rw [run_throwIf_bind, if_pos hadmin, if_pos hadmin]
        rfl
      · rw [run_throwIf_neg hadmin, if_neg hadmin]
        obtain ⟨hanswer, hrecord⟩ := run_limited (js "bad admin token") (run_tokenOk sha256 .adminToken
          v.req.adminToken cfg.adminToken ⟨(lim.locked v.req.key v.readings.locked).2, []⟩)
        simp only [decide_eq_true_eq] at hanswer hrecord
        exact Prod.ext hanswer hrecord
  | share =>
      obtain ⟨cs, h⟩ := @run_isOperator_eq sha256 cfg v.req ⟨lim, []⟩
      unfold authorizeShare
      simp only [run_bind, h]
      by_cases hop : IsOperator sha256 cfg v.req
      · have hyes : IsOperator sha256 cfg v.req ∨ v.friend.isSome = true := .inl hop
        simp only [decide_eq_true hop, if_pos hyes]
        rfl
      · cases v.friend with
        | none =>
            have hno : ¬(IsOperator sha256 cfg v.req ∨ (none : Option JsString).isSome = true) := by simp [hop]
            simp only [decide_eq_false hop, if_neg hno]
            rfl
        | some f =>
            have hyes : IsOperator sha256 cfg v.req ∨ (some f).isSome = true := .inr rfl
            simp only [decide_eq_false hop, if_pos hyes]
            rfl

/-! ## The limiter has what the answers say -/

variable (sha256 cfg) in
/-- The failures of every address, from the answers. -/
def noticed (tr : List (Visit × Except Exn Unit)) : FullHistory := ⟨10, 300000, fun ip => refusals sha256 cfg ip tr⟩

theorem refusals_snoc (ip : JsString) (tr : List (Visit × Except Exn Unit)) (e : Visit × Except Exn Unit) :
    refusals sha256 cfg ip (tr ++ [e]) = noted sha256 cfg ip (refusals sha256 cfg ip tr) e := by
  unfold refusals
  rw [List.foldl_append]
  rfl

/-- An answer changes the failures of the request's own address. -/
theorem noticed_snoc {tr : List (Visit × Except Exn Unit)} {v : Visit} {r : Except Exn Unit} {failures : List Int}
    (h : noted sha256 cfg v.req.key (refusals sha256 cfg v.req.key tr) (v, r) = failures) :
    noticed sha256 cfg (tr ++ [(v, r)]) =
      { noticed sha256 cfg tr with failures := Function.update (noticed sha256 cfg tr).failures v.req.key failures } := by
  have hfailures : (noticed sha256 cfg (tr ++ [(v, r)])).failures =
      Function.update (noticed sha256 cfg tr).failures v.req.key failures := by
    apply funext
    intro ip
    show refusals sha256 cfg ip (tr ++ [(v, r)]) = _
    rw [refusals_snoc]
    by_cases hip : v.req.key = ip
    · subst hip
      rw [Function.update_self, h]
    · rw [Function.update_of_ne (Ne.symm hip), noted, if_neg hip]
      rfl
  exact congrArg (FullHistory.mk 10 300000) hfailures

theorem noticed_snoc_same {tr : List (Visit × Except Exn Unit)} {v : Visit} {r : Except Exn Unit}
    (h : noted sha256 cfg v.req.key (refusals sha256 cfg v.req.key tr) (v, r) = refusals sha256 cfg v.req.key tr) :
    noticed sha256 cfg (tr ++ [(v, r)]) = noticed sha256 cfg tr := by
  rw [noticed_snoc h]
  exact congrArg (FullHistory.mk 10 300000) (Function.update_eq_self v.req.key _)

theorem Agrees.more {rs rs' : List Int} {lim : AttemptLimiter} {h : FullHistory} (hagrees : Agrees rs lim h)
    (hsub : rs ⊆ rs') : Agrees rs' lim h :=
  ⟨hagrees.max, hagrees.windowMs, fun key start hstart => hagrees.since key start fun r hr => hstart r (hsub hr)⟩

/-- **A request** changes the limiter and the failures that the answers tell alike. -/
theorem Agrees.visited (selfEd : JsString) {rs : List Int} {lim : AttemptLimiter} {tr : List (Visit × Except Exn Unit)} (v : Visit)
    (hagrees : Agrees rs lim (noticed sha256 cfg tr)) :
    Agrees (rs ++ [v.readings.locked, v.readings.recent, v.readings.failed]) (guardCall sha256 cfg selfEd lim v).2
      (noticed sha256 cfg (tr ++ [(v, (guardCall sha256 cfg selfEd lim v).1)])) := by
  rw [guardCall_eq]
  have hnoted (r : Except Exn Unit) : noted sha256 cfg v.req.key (refusals sha256 cfg v.req.key tr) (v, r) =
      match verdict sha256 cfg v, r with
      | .limited _, .ok () => []
      | .limited _, .error (.forbidden _) => refusals sha256 cfg v.req.key tr ++ [v.readings.failed]
      | _, _ => refusals sha256 cfg v.req.key tr := by
    rw [noted, if_pos rfl]
  generalize verdict sha256 cfg v = verdict at hnoted ⊢
  cases verdict with
  | free r =>
      rw [noticed_snoc_same (hnoted _)]
      exact hagrees.more (List.subset_append_left ..)
  | limited refusal =>
      have hasked := hagrees.call (.locked v.req.key v.readings.locked)
      have hlim : (lim.call (.locked v.req.key v.readings.locked)).2 = (lim.locked v.req.key v.readings.locked).2 := rfl
      rw [hlim] at hasked
      simp only [Verdict.answer, Verdict.record]
      cases (lim.locked v.req.key v.readings.locked).1 with
      | true =>
          simp only [if_true]
          rw [noticed_snoc_same (hnoted _)]
          refine hasked.more ?_
          simp [LimiterCall.readings]
      | false =>
          simp only [Bool.false_eq_true, if_false]
          cases refusal with
          | none =>
              -- a success clears the failures
              rw [noticed_snoc (hnoted _)]
              refine (hasked.call (.reset v.req.key)).more ?_
              simp [LimiterCall.readings]
          | some text =>
              rw [noticed_snoc (hnoted _)]
              refine (hasked.call (.fail v.req.key v.readings.recent v.readings.failed)).more ?_
              simp [LimiterCall.readings]

/-! ## The run -/

/-- **One answer**, from a limiter that agrees with the answers so far. -/
theorem guardCall_prescribed {rs : List Int} {lim : AttemptLimiter} {tr : List (Visit × Except Exn Unit)} {v : Visit}
    (hagrees : Agrees rs lim (noticed sha256 cfg tr)) (hrs : ∀ r ∈ rs, r ≤ v.readings.locked) :
    (guardCall sha256 cfg selfEd lim v).1 = prescribed sha256 cfg tr v := by
  have hlocked : (lim.locked v.req.key v.readings.locked).1 = decide (10 ≤ (refusals sha256 cfg v.req.key tr).countP fun t =>
      t > v.readings.locked - 300000) := by
    rw [AttemptLimiter.locked_eq, hagrees.recent hrs, hagrees.max]
    rfl
  rw [guardCall_eq, hlocked]
  rfl

theorem guard_prescribed_from {vs : List Visit} : ∀ {rs : List Int} {lim : AttemptLimiter} {tr : List (Visit × Except Exn Unit)}
    {clock : Int}, Agrees rs lim (noticed sha256 cfg tr) → (∀ r ∈ rs, r ≤ clock) → Ordered clock vs →
      ∀ pre v post, vs = pre ++ v :: post → (guardCall sha256 cfg selfEd (after (guardCall sha256 cfg selfEd) lim pre) v).1 =
        prescribed sha256 cfg (tr ++ transcript (guardCall sha256 cfg selfEd) lim pre) v := by
  induction vs with
  | nil =>
      intro _ _ _ _ _ _ _ pre v post heq
      exact absurd heq (by simp)
  | cons v vs ih =>
      intro rs lim tr clock hagrees hrs hclock
      obtain ⟨h1, h2, h3, hrest⟩ := hclock
      rw [forall_split_cons]
      constructor
      · rw [transcript_nil, List.append_nil]
        exact guardCall_prescribed hagrees fun r hr => Int.le_trans (hrs r hr) h1
      · intro pre w post heq
        have hreadings : ∀ r ∈ rs ++ [v.readings.locked, v.readings.recent, v.readings.failed], r ≤ v.readings.failed := by
          intro r hr
          rcases List.mem_append.mp hr with hr | hr
          · have := hrs r hr
            omega
          · simp only [List.mem_cons, List.not_mem_nil, or_false] at hr
            omega
        have hvisited := hagrees.visited selfEd v
        have hnext := ih hvisited hreadings hrest pre w post heq
        rw [List.append_assoc, List.singleton_append] at hnext
        exact hnext

/-- **Every guard answers as prescribed**: over any run of requests on a clock that never goes back, the answer to each is
    what the request brings decides, and an operator or admin route is refused as rate-limited exactly when ten requests
    of its own address were refused as forbidden in the five minutes before, since the last that succeeded. -/
theorem guard_prescribed (sha256 : JsString → Bytes) (cfg : AuthConfig) (selfEd : JsString) {clock : Int}
    {pre post : List Visit} {v : Visit} (hclock : Ordered clock (pre ++ v :: post)) :
    let guard := guardCall sha256 cfg selfEd
    (guard (after guard ⟨10, 300000, .empty⟩ pre) v).1 =
      prescribed sha256 cfg (transcript guard ⟨10, 300000, .empty⟩ pre) v := by
  have hnew : Agrees [] ⟨10, 300000, .empty⟩ (noticed sha256 cfg []) := Agrees.new 10 300000
  exact guard_prescribed_from hnew (by simp) hclock pre v post rfl

/-- The right token, after ten wrong ones. -/
theorem locked_address_refused :
    let guard := guardCall unitBytes production []
    let guesses := List.replicate 10 (guess GET (js "/admin/friends"))
    let right : Visit := ⟨⟨GET, js "/admin/friends", some (js "10.42.0.9"), [], js "secret"⟩, ⟨0, 0, 0⟩, none⟩
    (guard (after guard ⟨10, 300000, .empty⟩ guesses) right).1 =
        prescribed unitBytes production (transcript guard ⟨10, 300000, .empty⟩ guesses) right ∧
      prescribed unitBytes production (transcript guard ⟨10, 300000, .empty⟩ guesses) right =
        .error (.rateLimited (js "too many attempts — try again later")) := by
  intro guard guesses right
  have hclock : Ordered 0 (guesses ++ right :: []) := by
    simp [guesses, right, guess, List.replicate, Ordered]
  exact ⟨guard_prescribed unitBytes production [] hclock, by decide +kernel⟩

end Island
end VpnPi
