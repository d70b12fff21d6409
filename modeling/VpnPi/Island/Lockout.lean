import VpnPi.Island.Auth

/-!
# `Island.Lockout` — how many admin tokens an address can try

`requireAdmin` and `requireOperator` share one limiter. What a request does to it is one of four things
(`visit_limiter`), and a request that is `Throttled` pays for every wrong admin token it has compared with a
recorded failure (`visit_pays`). From that, at most `max` wrong admin tokens of one address are compared in a
window of requests that are all throttled and never present the right one (`wrong_le_of_throttled`).

Two kinds of request are not throttled: one for the file share, whose guard asks the limiter nothing, and one
for an operator route with the operator token, whose success clears the address's failures.
-/

namespace VpnPi
namespace Island

open Js Async Task

variable {sha256 : JsString → Bytes} {cfg : AuthConfig} {selfEd : JsString}

/-! ## What is counted -/

/-- When the guard of a request runs. -/
def Visit.time (v : Visit) : Int := v.readings.locked

/-- The wrong admin tokens among some comparisons. -/
def wrongAdmin (cfg : AuthConfig) (cs : List Comparison) : Nat :=
  cs.countP fun c => c.header = .adminToken && c.presented ≠ cfg.adminToken

/-- A request of the address in the five minutes up to `t`. -/
def InWindow (ip : JsString) (t : Int) (v : Visit) : Prop :=
  v.req.key = ip ∧ t - 300000 < v.time ∧ v.time ≤ t

instance (ip : JsString) (t : Int) (v : Visit) : Decidable (InWindow ip t v) := by
  unfold InWindow
  infer_instance

/-- The wrong admin tokens of an address that were compared in the five minutes up to `t`. -/
def wrongCompared (cfg : AuthConfig) (ip : JsString) (t : Int) : List (Visit × List Comparison) → Nat
  | [] => 0
  | (v, cs) :: log => (if InWindow ip t v then wrongAdmin cfg cs else 0) + wrongCompared cfg ip t log

/-- The readings of a non-decreasing clock that shows `clock` at first. -/
def Ordered : Int → List Visit → Prop
  | _, [] => True
  | clock, v :: vs => clock ≤ v.readings.locked ∧ v.readings.locked ≤ v.readings.recent ∧
      v.readings.recent ≤ v.readings.failed ∧ Ordered v.readings.failed vs

/-- A request whose guard makes it pay for a wrong admin token: on the share it presents no admin token to
    compare, on an operator route it does not come with the operator token. -/
def Throttled (sha256 : JsString → Bytes) (cfg : AuthConfig) (req : HttpRequest) : Prop :=
  match guardOf cfg req with
  | .share => req.adminToken = [] ∨ TokenMatches sha256 req.opToken cfg.opToken
  | .operator => ¬TokenMatches sha256 req.opToken cfg.opToken
  | .admin | .unguarded => True

theorem Ordered.locked_ge : ∀ {clock : Int} {vs : List Visit}, Ordered clock vs → ∀ v ∈ vs, clock ≤ v.time
  | _, v :: vs, h, w, hw => by
      rcases List.mem_cons.mp hw with rfl | hw
      · exact h.1
      · have := h.2.2.2.locked_ge w hw
        have h1 := h.1
        have h2 := h.2.1
        have h3 := h.2.2.1
        omega

/-- Nothing is counted after the window. -/
theorem wrongCompared_after {ip : JsString} {t : Int} : ∀ {lim : AttemptLimiter} {vs : List Visit},
    (∀ v ∈ vs, t < v.time) → wrongCompared cfg ip t (serve sha256 cfg selfEd lim vs) = 0
  | _, [], _ => rfl
  | lim, v :: vs, h => by
      obtain ⟨hv, hvs⟩ := List.forall_mem_cons.mp h
      have hno : ¬InWindow ip t v := fun hw => absurd hw.2.2 (Int.not_le.mpr hv)
      show (if InWindow ip t v then _ else 0) + wrongCompared cfg ip t _ = 0
      rw [if_neg hno, wrongCompared_after hvs]

/-! ## What a guard does to the limiter -/

theorem isOperator_ok (sha256 : JsString → Bytes) (cfg : AuthConfig) (req : HttpRequest) (s : AuthState) :
    ∃ b cs, (isOperator sha256 cfg req).run s = (.ok b, { s with compared := s.compared ++ cs }) := by
  have hop : ∃ b cs, (operatorOk sha256 cfg (req.address.getD []) req.opToken).run s
      = (.ok b, { s with compared := s.compared ++ cs }) := by
    unfold operatorOk
    split
    · exact ⟨true, [], by rw [List.append_nil]; rfl⟩
    · split
      · exact ⟨true, [], by rw [List.append_nil]; rfl⟩
      · exact ⟨_, _, run_tokenOk ..⟩
  obtain ⟨b, cs, hop⟩ := hop
  unfold isOperator manageOk
  rw [run_bind, hop]
  cases b with
  | true => exact ⟨true, cs, rfl⟩
  | false =>
      show ∃ b cs', Task.run (if cfg.adminToken = [] then _ else _) _ = _
      split
      · exact ⟨false, cs, rfl⟩
      · refine ⟨decide (TokenMatches sha256 req.adminToken cfg.adminToken),
          cs ++ recorded .adminToken req.adminToken cfg.adminToken, ?_⟩
        rw [run_tokenOk, ← List.append_assoc]

/-- The end of `requireOperator` and `requireAdmin`: the limiter forgets, or records. -/
def settle (ip : JsString) (t : Readings) (good : Bool) (lim : AttemptLimiter) : AttemptLimiter :=
  if good then lim.reset ip else lim.fail ip t.recent t.failed

theorem run_requireOperator {req : HttpRequest} {t : Readings} {lim : AttemptLimiter} {b : Bool}
    {cs : List Comparison}
    (h : (isOperator sha256 cfg req).run ⟨(lim.locked req.key t.locked).2, []⟩
      = (.ok b, ⟨(lim.locked req.key t.locked).2, cs⟩)) :
    ((requireOperator sha256 cfg req t).run ⟨lim, []⟩).2 =
      if (lim.locked req.key t.locked).1 then ⟨(lim.locked req.key t.locked).2, []⟩
      else ⟨settle req.key t b (lim.locked req.key t.locked).2, cs⟩ := by
  unfold requireOperator
  rw [run_refuseLocked_bind]
  cases (lim.locked req.key t.locked).1 with
  | true =>
      rw [if_pos rfl]
      rfl
  | false =>
      rw [if_neg Bool.false_ne_true, run_bind]
      simp only [h]
      cases b with
      | true => rfl
      | false => rfl

theorem run_requireAdmin {req : HttpRequest} {t : Readings} {lim : AttemptLimiter} (hmock : cfg.mock = false)
    (hadmin : cfg.adminToken ≠ []) :
    ((requireAdmin sha256 cfg req t).run ⟨lim, []⟩).2 =
      if (lim.locked req.key t.locked).1 then ⟨(lim.locked req.key t.locked).2, []⟩
      else ⟨settle req.key t (decide (TokenMatches sha256 req.adminToken cfg.adminToken))
              (lim.locked req.key t.locked).2,
            recorded .adminToken req.adminToken cfg.adminToken⟩ := by
  unfold requireAdmin
  rw [if_neg (by simp [hmock]), run_throwIf_neg hadmin, run_refuseLocked_bind]
  cases (lim.locked req.key t.locked).1 with
  | true =>
      rw [if_pos rfl]
      rfl
  | false =>
      rw [if_neg Bool.false_ne_true, run_bind, run_tokenOk]
      cases decide (TokenMatches sha256 req.adminToken cfg.adminToken) with
      | true => rfl
      | false => rfl

/-- What a request does to the limiter: nothing, or, under its own key, a look that prunes, which an
    operator or admin route may follow by forgetting or recording. -/
theorem visit_limiter (sha256 : JsString → Bytes) (cfg : AuthConfig) (selfEd : JsString)
    (lim : AttemptLimiter) (v : Visit) :
    let lim' := (visit sha256 cfg selfEd lim v).limiter
    let pruned := (lim.recent v.req.key v.readings.locked).2
    lim' = lim ∨ lim' = pruned ∨ ∃ good, lim' = settle v.req.key v.readings good pruned := by
  unfold visit runGuard
  cases guardOf cfg v.req with
  | unguarded => exact Or.inl rfl
  | operator =>
      obtain ⟨b, cs, h⟩ := isOperator_ok sha256 cfg v.req ⟨(lim.locked v.req.key v.readings.locked).2, []⟩
      refine Or.inr ?_
      simp only [run_requireOperator h]
      split
      · exact Or.inl rfl
      · exact Or.inr ⟨b, rfl⟩
  | admin =>
      -- it may throw before it looks at the limiter
      simp only
      by_cases hmock : cfg.mock = false
      · by_cases hadmin : cfg.adminToken = []
        · refine Or.inl ?_
          unfold requireAdmin
          rw [if_neg (by simp [hmock]), run_throwIf_bind, if_pos hadmin]
        · refine Or.inr ?_
          rw [run_requireAdmin hmock hadmin]
          split
          · exact Or.inl rfl
          · exact Or.inr ⟨_, rfl⟩
      · refine Or.inl ?_
        unfold requireAdmin
        rw [if_pos (by simpa using hmock)]
        rfl
  | share =>
      obtain ⟨b, cs, h⟩ := isOperator_ok sha256 cfg v.req ⟨lim, []⟩
      refine Or.inl ?_
      unfold authorizeShare
      simp only [run_bind, h]
      cases b with
      | true => rfl
      | false =>
          cases v.friend with
          | none => rfl
          | some f => rfl

theorem visit_frame (sha256 : JsString → Bytes) (cfg : AuthConfig) (selfEd : JsString) (lim : AttemptLimiter)
    (v : Visit) : (visit sha256 cfg selfEd lim v).limiter.max = lim.max ∧
      (visit sha256 cfg selfEd lim v).limiter.windowMs = lim.windowMs := by
  rcases visit_limiter sha256 cfg selfEd lim v with h | h | ⟨good, h⟩
  · rw [h]; exact ⟨rfl, rfl⟩
  · rw [h]; exact ⟨rfl, rfl⟩
  · rw [h]
    cases good with
    | true => exact ⟨rfl, rfl⟩
    | false => exact ⟨rfl, rfl⟩

/-- Requests from elsewhere leave an address's failures alone. -/
theorem since_visit_ne {lim : AttemptLimiter} {v : Visit} {ip : JsString} {start : Int}
    (h : ip ≠ v.req.key) : (visit sha256 cfg selfEd lim v).limiter.since ip start = lim.since ip start := by
  rcases visit_limiter sha256 cfg selfEd lim v with hl | hl | ⟨good, hl⟩
  · rw [hl]
  · rw [hl, AttemptLimiter.since_recent_ne lim _ h]
  · rw [hl, ← AttemptLimiter.since_recent_ne lim v.readings.locked h]
    cases good with
    | true => exact AttemptLimiter.since_reset_ne h
    | false => exact AttemptLimiter.since_fail_ne h

/-! ## A throttled request pays -/

theorem wrongAdmin_append (cs ds : List Comparison) :
    wrongAdmin cfg (cs ++ ds) = wrongAdmin cfg cs + wrongAdmin cfg ds := List.countP_append

theorem wrongAdmin_op (presented expected : JsString) :
    wrongAdmin cfg (recorded .opToken presented expected) = 0 := by
  unfold recorded
  split
  · rfl
  · rfl

theorem wrongAdmin_admin_le (presented : JsString) :
    wrongAdmin cfg (recorded .adminToken presented cfg.adminToken) ≤ 1 := by
  unfold recorded
  split
  · exact Nat.zero_le _
  · exact List.countP_le_length

/-- **A throttled request pays**: it has room below `max` for the wrong admin token it has compared, and a
    failure recorded for it, unless the window ends while its guard runs. -/
theorem visit_pays (selfEd : JsString) {lim : AttemptLimiter} {v : Visit} {t : Int} (hmock : cfg.mock = false)
    (hadmin : cfg.adminToken ≠ []) (hip : v.req.key ∉ loopback) (hmax : lim.max = 10)
    (hms : lim.windowMs = 300000) (hwrong : ¬TokenMatches sha256 v.req.adminToken cfg.adminToken)
    (hthrottled : Throttled sha256 cfg v.req) (hstart : t - 300000 < v.time) (hend : v.time ≤ t)
    (horder : v.readings.locked ≤ v.readings.recent ∧ v.readings.recent ≤ v.readings.failed) :
    let s := visit sha256 cfg selfEd lim v
    wrongAdmin cfg s.compared ≤ 10 - lim.since v.req.key (t - 300000) ∧
      (v.readings.recent ≤ t → lim.since v.req.key (t - 300000) + wrongAdmin cfg s.compared
        ≤ s.limiter.since v.req.key (t - 300000)) := by
  have hnear : v.readings.locked - lim.windowMs ≤ t - 300000 := by
    rw [hms]
    have : v.readings.locked ≤ t := hend
    omega
  have hip' : v.req.address.getD [] ∉ loopback := by
    cases haddr : v.req.address with
    | none => decide
    | some a =>
        have : v.req.key = a := by rw [HttpRequest.key, haddr]; rfl
        rw [← this]
        exact hip
  have hprune := AttemptLimiter.since_recent v.req.key hnear
  -- a look at the limiter, and a failure after it
  have paid : ∀ cs, wrongAdmin cfg cs ≤ 1 →
      (lim.locked v.req.key v.readings.locked).1 = false →
      wrongAdmin cfg cs ≤ 10 - lim.since v.req.key (t - 300000) ∧
        (v.readings.recent ≤ t → lim.since v.req.key (t - 300000) + wrongAdmin cfg cs ≤
          ((lim.recent v.req.key v.readings.locked).2.fail v.req.key v.readings.recent
            v.readings.failed).since v.req.key (t - 300000)) := by
    intro cs hcs hlocked
    have hlt := AttemptLimiter.since_lt_max hnear hlocked
    rw [hmax] at hlt
    refine ⟨by omega, fun hrecent => ?_⟩
    have hfailed : t - 300000 < v.readings.failed := by
      have : v.readings.locked = v.time := rfl
      omega
    rw [AttemptLimiter.since_fail (by rw [AttemptLimiter.windowMs_recent, hms]; omega) hfailed, hprune]
    omega
  unfold visit runGuard
  unfold Throttled at hthrottled
  -- only the two guards that compare the admin token have anything to pay for
  cases hguard : guardOf cfg v.req with
  | unguarded => exact ⟨Nat.zero_le _, fun _ => Nat.le_refl _⟩
  | operator =>
      rw [hguard] at hthrottled
      have h := run_isOperator sha256 cfg hmock hip' hadmin ⟨(lim.locked v.req.key v.readings.locked).2, []⟩
      rw [if_neg hthrottled, decide_eq_false hwrong] at h
      simp only [run_requireOperator h]
      cases hlocked : (lim.locked v.req.key v.readings.locked).1 with
      | true =>
          rw [if_pos rfl]
          exact ⟨Nat.zero_le _, fun _ => Nat.le_of_eq hprune.symm⟩
      | false =>
          rw [if_neg Bool.false_ne_true]
          refine paid _ ?_ hlocked
          rw [wrongAdmin_append, List.nil_append, wrongAdmin_op, Nat.zero_add]
          exact wrongAdmin_admin_le _
  | admin =>
      simp only [run_requireAdmin hmock hadmin, decide_eq_false hwrong]
      cases hlocked : (lim.locked v.req.key v.readings.locked).1 with
      | true =>
          rw [if_pos rfl]
          exact ⟨Nat.zero_le _, fun _ => Nat.le_of_eq hprune.symm⟩
      | false =>
          rw [if_neg Bool.false_ne_true]
          exact paid _ (wrongAdmin_admin_le _) hlocked
  | share =>
      rw [hguard] at hthrottled
      obtain ⟨b, cs, hok⟩ := isOperator_ok sha256 cfg v.req ⟨lim, []⟩
      have h := run_isOperator sha256 cfg hmock hip' hadmin ⟨lim, []⟩
      -- no admin token is compared
      have hnone : wrongAdmin cfg cs = 0 := by
        rw [hok] at h
        split at h
        · have := congrArg AuthState.compared (Prod.mk.inj h).2
          simp only [List.nil_append] at this
          rw [this, wrongAdmin_op]
        · next hno =>
            have hempty := hthrottled.resolve_right hno
            have := congrArg AuthState.compared (Prod.mk.inj h).2
            simp only [List.nil_append] at this
            rw [this, wrongAdmin_append, wrongAdmin_op, hempty, recorded, if_pos (Or.inr rfl)]
            rfl
      have hstate : ((authorizeShare sha256 cfg selfEd v.friend v.req >>= fun _ => (pure () :
          Task AuthState Exn Unit)).run ⟨lim, []⟩).2 = ⟨lim, cs⟩ := by
        unfold authorizeShare
        simp only [run_bind, hok]
        cases b with
        | true => rfl
        | false =>
            cases v.friend with
            | none => rfl
            | some f => rfl
      simp only [hstate, hnone]
      exact ⟨Nat.zero_le _, fun _ => Nat.le_refl _⟩

/-! ## A window -/

/-- What the bound needs of the requests that fall into the window. -/
structure Admissible (sha256 : JsString → Bytes) (cfg : AuthConfig) (v : Visit) : Prop where
  wrong     : ¬TokenMatches sha256 v.req.adminToken cfg.adminToken
  throttled : Throttled sha256 cfg v.req

/-- From within the window: what is still compared fits into what the limiter still allows. -/
theorem wrongCompared_le {ip : JsString} {t : Int} (hmock : cfg.mock = false) (hadmin : cfg.adminToken ≠ [])
    (hip : ip ∉ loopback) : ∀ {vs : List Visit} {lim : AttemptLimiter} {clock : Int}, lim.max = 10 →
      lim.windowMs = 300000 → t - 300000 < clock → Ordered clock vs →
      (∀ v ∈ vs, InWindow ip t v → Admissible sha256 cfg v) →
      wrongCompared cfg ip t (serve sha256 cfg selfEd lim vs) ≤ 10 - lim.since ip (t - 300000)
  | [], _, _, _, _, _, _, _ => Nat.zero_le _
  | v :: vs, lim, clock, hmax, hms, hclock, horder, hall => by
      obtain ⟨hle, hlr, hrf, hrest⟩ := horder
      obtain ⟨hv, hvs⟩ := List.forall_mem_cons.mp hall
      obtain ⟨hmax', hms'⟩ := visit_frame sha256 cfg selfEd lim v
      have hnext : t - 300000 < v.readings.failed := by omega
      have ih := wrongCompared_le hmock hadmin hip (hmax'.trans hmax) (hms'.trans hms)
        hnext hrest hvs
      show (if InWindow ip t v then wrongAdmin cfg (visit sha256 cfg selfEd lim v).compared else 0) +
        wrongCompared cfg ip t (serve sha256 cfg selfEd (visit sha256 cfg selfEd lim v).limiter vs) ≤ _
      by_cases hin : InWindow ip t v
      · obtain ⟨hkey, hstart, hend⟩ := hin
        have hok := hv ⟨hkey, hstart, hend⟩
        have hpays := visit_pays selfEd hmock hadmin (hkey ▸ hip) hmax hms hok.wrong hok.throttled
          hstart hend ⟨hlr, hrf⟩
        rw [hkey] at hpays
        rw [if_pos ⟨hkey, hstart, hend⟩]
        by_cases hrecent : v.readings.recent ≤ t
        · have := hpays.2 hrecent
          have := hpays.1
          omega
        · -- the window ends while the guard runs
          have hafter : ∀ w ∈ vs, t < w.time := fun w hw => by
            have := hrest.locked_ge w hw
            omega
          rw [wrongCompared_after hafter]
          exact hpays.1
      · rw [if_neg hin, Nat.zero_add]
        by_cases hkey : ip = v.req.key
        · -- a request of the address after the window
          have hafter : ∀ w ∈ vs, t < w.time := fun w hw => by
            have hlate : t < v.time := Int.not_le.mp fun hend =>
              hin ⟨hkey.symm, Int.lt_of_lt_of_le hclock hle, hend⟩
            have := hrest.locked_ge w hw
            have : v.readings.locked = v.time := rfl
            omega
          rw [wrongCompared_after hafter]
          exact Nat.zero_le _
        · rw [since_visit_ne hkey] at ih
          exact ih

/-- **The lockout bound.** In production mode with a configured admin token, at most ten wrong admin tokens of
    an address off the loopback interface are compared with the configured one in any five minutes whose
    requests are all throttled and do not present it. No request is assumed to find a second preimage of the
    configured token's digest. -/
theorem wrong_le_of_throttled {ip : JsString} {t clock : Int} {vs : List Visit} (hmock : cfg.mock = false)
    (hadmin : cfg.adminToken ≠ []) (hip : ip ∉ loopback) (horder : Ordered clock vs)
    (hsha : ∀ v ∈ vs, sha256 v.req.adminToken = sha256 cfg.adminToken → v.req.adminToken = cfg.adminToken)
    (hwindow : ∀ v ∈ vs, InWindow ip t v → v.req.adminToken ≠ cfg.adminToken)
    (hthrottled : ∀ v ∈ vs, InWindow ip t v → Throttled sha256 cfg v.req) :
    wrongCompared cfg ip t (serve sha256 cfg selfEd ⟨10, 300000, .empty⟩ vs) ≤ 10 := by
  have hall : ∀ v ∈ vs, InWindow ip t v → Admissible sha256 cfg v :=
    fun v hv hin => ⟨fun hm => hwindow v hv hin (hsha v hv hm.2.2), hthrottled v hv hin⟩
  clear hsha hwindow hthrottled
  -- up to the window nothing is counted; from its first request on, `wrongCompared_le` applies
  have key : ∀ (vs : List Visit) (lim : AttemptLimiter) (clock : Int), lim.max = 10 →
      lim.windowMs = 300000 → Ordered clock vs → (∀ v ∈ vs, InWindow ip t v → Admissible sha256 cfg v) →
      wrongCompared cfg ip t (serve sha256 cfg selfEd lim vs) ≤ 10 := by
    intro vs
    induction vs with
    | nil => exact fun _ _ _ _ _ _ => Nat.zero_le _
    | cons v vs ih =>
        intro lim clock hmax hms horder hall
        by_cases hstart : t - 300000 < v.time
        · have horder' : Ordered v.time (v :: vs) := ⟨Int.le_refl _, horder.2⟩
          exact (wrongCompared_le hmock hadmin hip hmax hms hstart horder' hall).trans (Nat.sub_le _ _)
        · obtain ⟨hmax', hms'⟩ := visit_frame sha256 cfg selfEd lim v
          show (if InWindow ip t v then _ else 0) + wrongCompared cfg ip t _ ≤ 10
          rw [if_neg (fun hin => hstart hin.2.1), Nat.zero_add]
          exact ih _ _ (hmax'.trans hmax) (hms'.trans hms) horder.2.2.2
            (List.forall_mem_cons.mp hall).2
  exact key vs _ clock rfl rfl horder hall

/-! ## Guesses -/

/-- A digest without collisions, for the runs below. -/
def unitBytes (s : JsString) : Bytes :=
  s.flatMap fun u => [UInt8.ofNat (u.toNat / 256), UInt8.ofNat (u.toNat % 256)]

def production : AuthConfig := ⟨false, js "op", js "secret", false, false⟩

/-- A guess at the admin token. -/
def guess (method path : JsString) : Visit :=
  ⟨⟨method, path, some (js "10.42.0.9"), [], js "guess"⟩, ⟨0, 0, 0⟩, none⟩

def shareGuesses : List Visit := List.replicate 11 (guess GET (js "/api/files"))

def adminGuesses : List Visit := List.replicate 12 (guess GET (js "/admin/friends"))

theorem ordered_replicate {v : Visit} (h : v.readings = ⟨0, 0, 0⟩) (n : Nat) : Ordered 0 (List.replicate n v) := by
  induction n with
  | zero => trivial
  | succ n ih =>
      rw [List.replicate_succ]
      refine ⟨?_, ?_, ?_, ?_⟩
      · exact Int.le_of_eq (by rw [h])
      · exact Int.le_of_eq (by rw [h])
      · exact Int.le_of_eq (by rw [h])
      · rw [h]; exact ih

/-- Eleven guesses at `GET /api/files`, all of them compared. -/
theorem share_guesses_compared :
    production.mock = false ∧ production.adminToken ≠ [] ∧ js "10.42.0.9" ∉ loopback ∧
      Ordered 0 shareGuesses ∧ (∀ v ∈ shareGuesses, v.req.adminToken ≠ production.adminToken) ∧
      10 < wrongCompared production (js "10.42.0.9") 0
        (serve unitBytes production [] ⟨10, 300000, .empty⟩ shareGuesses) := by
  refine ⟨rfl, by decide, by decide, ordered_replicate rfl 11, ?_, by decide +kernel⟩
  intro v hv
  rw [List.eq_of_mem_replicate hv]
  decide

theorem admin_guesses_locked :
    wrongCompared production (js "10.42.0.9") 0
      (serve unitBytes production [] ⟨10, 300000, .empty⟩ adminGuesses) ≤ 10 := by
  refine wrong_le_of_throttled rfl (by decide) (by decide) (ordered_replicate rfl 12) ?_ ?_ ?_
  · intro v hv
    rw [List.eq_of_mem_replicate hv]
    decide
  · intro v hv _
    rw [List.eq_of_mem_replicate hv]
    decide
  · intro v hv _
    rw [List.eq_of_mem_replicate hv]
    have hguard : guardOf production (guess GET (js "/admin/friends")).req = .admin := by decide +kernel
    rw [Throttled, hguard]
    trivial

end Island
end VpnPi
