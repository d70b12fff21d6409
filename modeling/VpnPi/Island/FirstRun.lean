import VpnPi.Async.Trace
import VpnPi.Island.FriendCode

/-!
# `Island.FirstRun` — the one-time reveal of the admin token (`main.ts`)

`provisionAdminToken` leaves a marker beside a token it has generated. `GET /admin/firstrun` looks for the marker, calls
`unlink`, and answers with the token when the call has settled, whatever came of it. Between the call and the moment the
file is gone, another request finds the marker too; and where the call fails, so does every later one.

* `firstrun_once_iff` — in the life of one marker the token is revealed at most once if no request arrives while an
  `unlink` is under way or after one has failed (`Serial`), and only then if every request is answered;
* `run_made` — where the marker of the first start has its token, a restart never makes another one.
-/

namespace VpnPi
namespace Island

open Js Async

/-! ## The model -/

/-- The files `admin.token` and `admin.token.fresh`. -/
structure DataDir where
  token  : Option JsString
  marker : Bool
  deriving DecidableEq

/-- What a process is started with: `--mock`, `ISLAND_ADMIN_TOKEN`, and the bytes that `randombytes_buf(18)` gives it. -/
structure Launch where
  mock   : Bool
  env    : JsString
  random : Bytes

def provisionAdminToken (U : UrlBase64) (l : Launch) (dir : DataDir) : JsString × DataDir :=
  if l.mock then ([], dir)
  else if l.env ≠ [] then (l.env, dir)
  else
    match dir.token with
    | some text => (trim text, dir)
    | none => (U.encode l.random, ⟨some (U.encode l.random), true⟩)

/-- A token is generated, with a marker beside it. -/
def provisions (l : Launch) (dir : DataDir) : Bool := !l.mock && l.env = [] && dir.token = none

/-- A server, with the requests that wait at `await unlink(marker)`: those whose file operation is still to come, and
    those whose operation is over. -/
structure FirstRun where
  adminToken : JsString
  mock       : Bool
  dir        : DataDir
  unlinking  : Nat := 0
  unlinked   : Nat := 0
  deriving DecidableEq

inductive FirstRunEvent where
  /-- `GET /admin/firstrun` arrives, at a server that has a token and is no `--mock` or at another one. A request that
      finds no marker there is answered at once, with `null`. -/
  | visited (serves found : Bool)
  /-- The file operation of a request is over. -/
  | deleted (removed : Bool)
  | revealed (token : JsString)
  /-- A new process, which makes a marker or does not. -/
  | restart (made : Bool)

def FirstRun.boot (U : UrlBase64) (l : Launch) (dir : DataDir) : FirstRun :=
  { adminToken := (provisionAdminToken U l dir).1, mock := l.mock, dir := (provisionAdminToken U l dir).2 }

/-- `ctx.adminToken && !ctx.args.mock` -/
def FirstRun.serves (s : FirstRun) : Bool := s.adminToken ≠ [] && !s.mock

/-- `GET /admin/firstrun` up to its `await`. -/
def FirstRun.request (s : FirstRun) : FirstRunEvent × FirstRun :=
  if !s.serves || !s.dir.marker then (.visited s.serves false, s)
  else (.visited s.serves true, { s with unlinking := s.unlinking + 1 })

inductive FirstRun.Step (U : UrlBase64) : FirstRun → FirstRunEvent → FirstRun → Prop
  | request {s s' : FirstRun} {e : FirstRunEvent} (h : s.request = (e, s')) : Step U s e s'
  | removed {s : FirstRun} {n : Nat} (h : s.unlinking = n + 1) (there : s.dir.marker = true) :
      Step U s (.deleted true)
        { s with dir := { s.dir with marker := false }, unlinking := n, unlinked := s.unlinked + 1 }
  -- `.catch(() => {})`
  | failed {s : FirstRun} {n : Nat} (h : s.unlinking = n + 1) :
      Step U s (.deleted false) { s with unlinking := n, unlinked := s.unlinked + 1 }
  | resumed {s : FirstRun} {n : Nat} (h : s.unlinked = n + 1) :
      Step U s (.revealed s.adminToken) { s with unlinked := n }
  -- what the requests of the old process wait for is lost with it
  | restart (s : FirstRun) (l : Launch) : Step U s (.restart (provisions l s.dir)) (.boot U l s.dir)

/-! ## What a trace tells -/

/-- What the outside sees of one marker: the calls of `unlink` whose operation is still to come, whether one has failed,
    the requests that wait, and the tokens in the responses. -/
structure MarkerLife where
  underway : Nat := 0
  failed   : Bool := false
  waiting  : Nat := 0
  shown    : List JsString := []
  deriving DecidableEq

def MarkerLife.next (m : MarkerLife) : FirstRunEvent → MarkerLife
  | .visited _ false => m
  | .visited _ true => { m with underway := m.underway + 1, waiting := m.waiting + 1 }
  | .deleted true => { m with underway := m.underway - 1, failed := false }
  | .deleted false => { m with underway := m.underway - 1, failed := true }
  | .revealed token => { m with waiting := m.waiting - 1, shown := m.shown ++ [token] }
  -- the file is still the one of the old process
  | .restart false => { m with underway := 0, waiting := 0 }
  | .restart true => {}

def markerLife (tr : List FirstRunEvent) : MarkerLife := tr.foldl MarkerLife.next {}

/-- No request arrives, at a server that has a token to show, while an `unlink` is under way or after one has failed. -/
def Serial (tr : List FirstRunEvent) : Prop :=
  Always (fun pre e => ∀ found, e = .visited true found →
    (markerLife pre).underway = 0 ∧ (markerLife pre).failed = false) tr

/-- In the life of every marker at most one response has the token. -/
def ShownOnce (tr : List FirstRunEvent) : Prop := ∀ pre post, tr = pre ++ post → (markerLife pre).shown.length ≤ 1

/-- Every request that has found the marker is answered: no restart finds one waiting, and none waits at the end. -/
def Answered (tr : List FirstRunEvent) : Prop :=
  Always (fun pre e => ∀ made, e = .restart made → (markerLife pre).waiting = 0) tr ∧ (markerLife tr).waiting = 0

variable {U : UrlBase64} {l : Launch} {dir : DataDir} {s s' : FirstRun} {e : FirstRunEvent} {tr : List FirstRunEvent}

theorem markerLife_snoc (tr : List FirstRunEvent) (e : FirstRunEvent) :
    markerLife (tr ++ [e]) = (markerLife tr).next e := by
  rw [markerLife, List.foldl_append]
  rfl

theorem ShownOnce.init (h : ShownOnce (tr ++ [e])) : ShownOnce tr := by
  intro pre post htr
  apply h pre (post ++ [e])
  rw [htr, List.append_assoc]

theorem ShownOnce.snoc (h : ShownOnce tr) (hlast : (markerLife (tr ++ [e])).shown.length ≤ 1) : ShownOnce (tr ++ [e]) := by
  intro pre post htr
  rcases concat_split htr with ⟨rfl, _⟩ | ⟨post', _, htr⟩
  · exact hlast
  · exact h pre post' htr

theorem ShownOnce.last (h : ShownOnce tr) : (markerLife tr).shown.length ≤ 1 := h tr [] (List.append_nil tr).symm

theorem FirstRun.request_cases (h : s.request = (e, s')) :
    (e = .visited s.serves false ∧ (s.serves = true → s.dir.marker = false) ∧ s' = s) ∨
    (e = .visited true true ∧ s.dir.marker = true ∧ s' = { s with unlinking := s.unlinking + 1 }) := by
  unfold FirstRun.request at h
  split at h
  · next hclosed =>
      cases h
      refine .inl ⟨rfl, fun hserves => ?_, rfl⟩
      simpa [hserves] using hclosed
  · next hopen =>
      cases h
      simp only [Bool.or_eq_true, Bool.not_eq_true', not_or, Bool.not_eq_false] at hopen
      refine .inr ⟨?_, hopen.2, rfl⟩
      rw [hopen.1]

/-- Where nothing is generated, the files stay as they are. -/
theorem provisionAdminToken_of_not (h : provisions l dir = false) : (provisionAdminToken U l dir).2 = dir := by
  unfold provisionAdminToken
  split
  · rfl
  split
  · rfl
  split
  · rfl
  · next hmock henv _ htoken =>
      simp [provisions, hmock, henv, htoken] at h

/-- The counts of the trace are those of the server. -/
theorem FirstRun.Step.counts {m : MarkerLife} (h : FirstRun.Step U s e s') (hunderway : m.underway = s.unlinking)
    (hwaiting : m.waiting = s.unlinking + s.unlinked) :
    (m.next e).underway = s'.unlinking ∧ (m.next e).waiting = s'.unlinking + s'.unlinked := by
  cases h with
  | request h =>
      rcases FirstRun.request_cases h with ⟨rfl, _, rfl⟩ | ⟨rfl, _, rfl⟩
      · exact ⟨hunderway, hwaiting⟩
      · simp only [MarkerLife.next, hunderway, hwaiting, true_and]
        omega
  | removed h _ =>
      simp only [MarkerLife.next, hunderway, hwaiting, h]
      omega
  | failed h =>
      simp only [MarkerLife.next, hunderway, hwaiting, h]
      omega
  | resumed h =>
      simp only [MarkerLife.next, hunderway, hwaiting, h, true_and]
      omega
  | restart l =>
      cases provisions l s.dir
      · exact ⟨rfl, rfl⟩
      · exact ⟨rfl, rfl⟩

theorem counts_of_run (run : Run (FirstRun.Step U) (.boot U l dir) tr s) :
    (markerLife tr).underway = s.unlinking ∧ (markerLife tr).waiting = s.unlinking + s.unlinked := by
  refine run.invariant (I := fun tr s => (markerLife tr).underway = s.unlinking ∧
    (markerLife tr).waiting = s.unlinking + s.unlinked) ⟨rfl, rfl⟩ fun tr s e s' _ ih h => ?_
  rw [markerLife_snoc]
  exact h.counts ih.1 ih.2

/-! ## Once -/

/-- The requests that wait, and those that have been answered with the token. -/
def MarkerLife.claims (m : MarkerLife) : Nat := m.waiting + m.shown.length

/-- What a trace in which nobody disturbs a request leaves: at most one request has found the marker, and it deletes the
    file, has failed to, or the file is gone. -/
structure Claimed (m : MarkerLife) (s : FirstRun) : Prop where
  claims : m.claims ≤ 1
  taken  : 0 < m.claims → 0 < m.underway ∨ m.failed = true ∨ s.dir.marker = false

theorem claims_revealed {m : MarkerLife} (token : JsString) (h : 0 < m.waiting) :
    (m.next (.revealed token)).claims = m.claims := by
  simp only [MarkerLife.claims, MarkerLife.next, List.length_append, List.length_singleton]
  omega

/-- One step keeps it, if a request that arrives finds no `unlink` under way and none that has failed. -/
theorem Claimed.step {m : MarkerLife} (h : Claimed m s) (hunderway : m.underway = s.unlinking)
    (hwaiting : m.waiting = s.unlinking + s.unlinked) (hstep : FirstRun.Step U s e s')
    (hserial : ∀ found, e = .visited true found → m.underway = 0 ∧ m.failed = false) : Claimed (m.next e) s' := by
  cases hstep with
  | request hrequest =>
      rcases FirstRun.request_cases hrequest with ⟨rfl, _, rfl⟩ | ⟨rfl, hmarker, rfl⟩
      · exact h
      · obtain ⟨hidle, hfailed⟩ := hserial true rfl
        -- the file is there and nobody deletes it, so this is the first request to find it
        have hnone : m.claims = 0 := by
          by_contra hpos
          have htaken := h.taken (Nat.pos_of_ne_zero hpos)
          simp [hidle, hfailed, hmarker] at htaken
        simp only [MarkerLife.claims] at hnone
        constructor
        · simp only [MarkerLife.claims, MarkerLife.next]
          omega
        · intro _
          exact .inl (Nat.succ_pos _)
  | removed => exact ⟨h.claims, fun _ => .inr (.inr rfl)⟩
  | failed => exact ⟨h.claims, fun _ => .inr (.inl rfl)⟩
  | resumed hunlinked =>
      have hsame := claims_revealed (m := m) s.adminToken (by omega)
      constructor
      · rw [hsame]
        exact h.claims
      · rw [hsame]
        exact h.taken
  | restart l =>
      cases hmade : provisions l s.dir with
      | true => exact ⟨Nat.zero_le 1, fun hpos => absurd hpos (Nat.lt_irrefl 0)⟩
      | false =>
          have hclaims := h.claims
          simp only [MarkerLife.claims] at hclaims
          constructor
          · simp only [MarkerLife.claims, MarkerLife.next]
            omega
          · intro hshown
            simp only [MarkerLife.claims, MarkerLife.next, Nat.zero_add] at hshown
            -- whoever has been answered waits no more, so nobody deletes the file
            rcases h.taken (Nat.add_pos_right _ hshown) with hpos | hrest
            · omega
            · right
              show m.failed = true ∨ (provisionAdminToken U l s.dir).2.marker = false
              rw [provisionAdminToken_of_not hmade]
              exact hrest

theorem Serial.claimed (run : Run (FirstRun.Step U) (.boot U l dir) tr s) (h : Serial tr) : Claimed (markerLife tr) s := by
  refine run.invariant (I := fun tr s => Serial tr → Claimed (markerLife tr) s)
    (fun _ => ⟨Nat.zero_le 1, fun hpos => absurd hpos (Nat.lt_irrefl 0)⟩) ?_ h
  intro tr s e s' run ih hstep h
  rw [markerLife_snoc]
  obtain ⟨hunderway, hwaiting⟩ := counts_of_run run
  exact (ih h.init).step hunderway hwaiting hstep h.last

theorem Serial.shownOnce (run : Run (FirstRun.Step U) (.boot U l dir) tr s) (h : Serial tr) : ShownOnce tr := by
  refine run.invariant (I := fun tr _ => Serial tr → ShownOnce tr) (fun _ => ?_) ?_ h
  · intro pre post htr
    obtain ⟨rfl, rfl⟩ := List.append_eq_nil_iff.mp htr.symm
    exact Nat.zero_le 1
  · intro tr s e s' run ih hstep h
    exact (ih h.init).snoc (Nat.le_trans (Nat.le_add_left _ _) (Serial.claimed (run.snoc hstep) h).claims)

/-! ## Only then -/

/-- While an `unlink` is under way or after one has failed the file is there, and a request has claimed it. -/
structure MarkerStands (m : MarkerLife) (s : FirstRun) : Prop where
  alone  : m.underway ≤ 1
  stands : 0 < m.underway ∨ m.failed = true → s.dir.marker = true ∧ 0 < m.claims

theorem MarkerStands.step {m : MarkerLife} (h : MarkerStands m s) (hunderway : m.underway = s.unlinking)
    (hwaiting : m.waiting = s.unlinking + s.unlinked) (hstep : FirstRun.Step U s e s')
    (hserial : ∀ found, e = .visited true found → m.underway = 0 ∧ m.failed = false)
    (hkept : ∀ made, e = .restart made → m.waiting = 0) : MarkerStands (m.next e) s' := by
  have halone := h.alone
  cases hstep with
  | request hrequest =>
      rcases FirstRun.request_cases hrequest with ⟨rfl, _, rfl⟩ | ⟨rfl, hmarker, rfl⟩
      · exact h
      · obtain ⟨hidle, _⟩ := hserial true rfl
        constructor
        · simp only [MarkerLife.next]
          omega
        · intro _
          refine ⟨hmarker, ?_⟩
          simp only [MarkerLife.claims, MarkerLife.next]
          omega
  | removed hn =>
      constructor
      · exact Nat.le_trans (Nat.sub_le _ _) halone
      · intro hpos
        rcases hpos with hpos | hpos
        · simp only [MarkerLife.next] at hpos
          omega
        · cases hpos
  | failed hn =>
      constructor
      · exact Nat.le_trans (Nat.sub_le _ _) halone
      · intro _
        exact h.stands (.inl (by omega))
  | resumed hn =>
      refine ⟨halone, fun hpos => ?_⟩
      rw [claims_revealed s.adminToken (by omega)]
      exact h.stands hpos
  | restart l =>
      cases hmade : provisions l s.dir with
      | true => exact ⟨Nat.zero_le 1, fun hpos => by simp [MarkerLife.next] at hpos⟩
      | false =>
          refine ⟨Nat.zero_le 1, fun hpos => ?_⟩
          simp only [MarkerLife.next, Nat.lt_irrefl, false_or] at hpos
          have hstands := h.stands (.inr hpos)
          rw [MarkerLife.claims, hkept _ rfl] at hstands
          show (provisionAdminToken U l s.dir).2.marker = true ∧ 0 < 0 + m.shown.length
          rw [provisionAdminToken_of_not hmade]
          exact hstands

/-- Only a restart that makes another marker ends a claim. -/
theorem claims_le_next {m : MarkerLife} (hkept : ∀ made, e = .restart made → m.waiting = 0)
    (hmade : e ≠ .restart true) : m.claims ≤ (m.next e).claims := by
  cases e with
  | visited serves found =>
      cases found
      · exact Nat.le_refl _
      · simp only [MarkerLife.claims, MarkerLife.next]
        omega
  | deleted removed => cases removed <;> exact Nat.le_refl _
  | revealed token =>
      simp only [MarkerLife.claims, MarkerLife.next, List.length_append, List.length_singleton]
      omega
  | restart made =>
      cases made
      · simp [MarkerLife.claims, MarkerLife.next, hkept false rfl]
      · exact absurd rfl hmade

/-- In a run that loses no request, two requests that find one marker are two reveals once both are answered. -/
theorem serial_of_claims (run : Run (FirstRun.Step U) (.boot U l dir) tr s)
    (hkept : Always (fun pre e => ∀ made, e = .restart made → (markerLife pre).waiting = 0) tr) (honce : ShownOnce tr)
    (hclaims : (markerLife tr).claims ≤ 1) : Serial tr ∧ MarkerStands (markerLife tr) s := by
  refine run.invariant (I := fun tr s =>
    Always (fun pre e => ∀ made, e = .restart made → (markerLife pre).waiting = 0) tr → ShownOnce tr →
      (markerLife tr).claims ≤ 1 → Serial tr ∧ MarkerStands (markerLife tr) s) ?_ ?_ hkept honce hclaims
  · intro _ _ _
    exact ⟨always_nil, Nat.zero_le 1, fun hpos => by simp [markerLife] at hpos⟩
  · intro tr s e s' run ih hstep hkept honce hclaims
    rw [markerLife_snoc] at hclaims
    have hbefore : (markerLife tr).claims ≤ 1 := by
      by_cases hmade : e = .restart true
      · rw [MarkerLife.claims, hkept.last true hmade, Nat.zero_add]
        exact honce.init.last
      · exact Nat.le_trans (claims_le_next hkept.last hmade) hclaims
    obtain ⟨hserial, hstanding⟩ := ih hkept.init honce.init hbefore
    have hlast : ∀ found, e = .visited true found → (markerLife tr).underway = 0 ∧ (markerLife tr).failed = false := by
      intro found he
      subst he
      by_contra hdisturbed
      obtain ⟨hmarker, hpos⟩ := hstanding.stands (by
        cases hfailed : (markerLife tr).failed with
        | true => exact .inr rfl
        | false =>
            left
            apply Nat.pos_of_ne_zero
            intro hidle
            exact hdisturbed ⟨hidle, hfailed⟩)
      -- so the request finds the marker as well
      cases hstep with
      | request hrequest =>
          rcases FirstRun.request_cases hrequest with ⟨he, hgone, _⟩ | ⟨he, _, _⟩
          · injection he with hserves
            rw [hgone hserves.symm] at hmarker
            cases hmarker
          · injection he with _ hfound
            subst hfound
            simp only [MarkerLife.claims, MarkerLife.next] at hclaims hpos
            omega
    obtain ⟨hunderway, hwaiting⟩ := counts_of_run run
    rw [markerLife_snoc]
    exact ⟨hserial.snoc hlast, hstanding.step hunderway hwaiting hstep hlast hkept.last⟩

/-- **When the token is revealed at most once** in the life of a marker: if no request arrives while an `unlink` is under
    way or after one has failed, and only then if every request is answered. -/
theorem firstrun_once_iff (U : UrlBase64) (l : Launch) (dir : DataDir) {tr : List FirstRunEvent} {s : FirstRun}
    (run : Run (FirstRun.Step U) (.boot U l dir) tr s) :
    (Serial tr → ShownOnce tr) ∧ (Answered tr → (ShownOnce tr ↔ Serial tr)) := by
  refine ⟨Serial.shownOnce run, fun hanswered => ⟨fun honce => ?_, Serial.shownOnce run⟩⟩
  refine (serial_of_claims run hanswered.1 honce ?_).1
  rw [MarkerLife.claims, hanswered.2, Nat.zero_add]
  exact honce.last

namespace Symbolic

/-- A first start, with nothing in the data directory. -/
def firstLaunch : Launch := ⟨false, [], List.replicate 18 0⟩

def freshDir : DataDir := ⟨none, false⟩

/-- The server that has generated its token. -/
def fresh : FirstRun :=
  { adminToken := List.replicate 24 0x41, mock := false, dir := ⟨some (List.replicate 24 0x41), true⟩ }

/-- The server once a visitor has been shown the token. -/
def shown : FirstRun := { fresh with dir := { fresh.dir with marker := false } }

theorem boot_fresh : FirstRun.boot base64Url firstLaunch freshDir = fresh := rfl

/-- One visitor, from the marker to the token. -/
theorem fresh_visited : Run (FirstRun.Step base64Url) fresh
    [.visited true true, .deleted true, .revealed fresh.adminToken] shown := by
  have found : Run (FirstRun.Step base64Url) fresh [.visited true true] { fresh with unlinking := 1 } :=
    Run.nil.snoc (.request rfl)
  exact (found.snoc (.removed rfl rfl)).snoc (.resumed rfl)

/-- A visitor is shown the token, a second one and, after a restart, a third one are not. -/
theorem visited_thrice : ∃ tr s, Run (FirstRun.Step base64Url) (.boot base64Url firstLaunch freshDir) tr s ∧
    tr = [.visited true true, .deleted true, .revealed fresh.adminToken, .visited true false, .restart false,
      .visited true false] ∧
    Serial tr ∧ (markerLife tr).shown = [fresh.adminToken] ∧ ShownOnce tr := by
  have run : Run (FirstRun.Step base64Url) (.boot base64Url firstLaunch freshDir)
      [.visited true true, .deleted true, .revealed fresh.adminToken, .visited true false, .restart false,
        .visited true false] shown := by
    rw [boot_fresh]
    have again := (fresh_visited.snoc (.request rfl)).snoc (.restart _ firstLaunch)
    exact again.snoc (.request rfl)
  have hserial : Serial [.visited true true, .deleted true, .revealed fresh.adminToken, .visited true false,
      .restart false, .visited true false] := by
    have none : Serial [] := always_nil
    have first : Serial [.visited true true] := none.snoc fun _ _ => ⟨rfl, rfl⟩
    have deleted := first.snoc (l := .deleted true) fun _ he => by cases he
    have revealed := deleted.snoc (l := .revealed fresh.adminToken) fun _ he => by cases he
    have second := revealed.snoc (l := .visited true false) fun _ _ => ⟨rfl, rfl⟩
    have restarted := second.snoc (l := .restart false) fun _ he => by cases he
    exact restarted.snoc fun _ _ => ⟨rfl, rfl⟩
  exact ⟨_, _, run, rfl, hserial, rfl, (firstrun_once_iff base64Url firstLaunch freshDir run).1 hserial⟩

/-- Two visitors look for the marker before either file operation; and one comes after another's has failed. -/
theorem visit_twice :
    (∃ tr s, Run (FirstRun.Step base64Url) (.boot base64Url firstLaunch freshDir) tr s ∧ FirstRunEvent.restart true ∉ tr ∧
      (markerLife tr).shown = [fresh.adminToken, fresh.adminToken]) ∧
    ∃ tr s, Run (FirstRun.Step base64Url) (.boot base64Url firstLaunch freshDir) tr s ∧
      tr = [.visited true true, .deleted false, .revealed fresh.adminToken,
        .visited true true, .deleted true, .revealed fresh.adminToken] ∧
      (markerLife tr).shown = [fresh.adminToken, fresh.adminToken] := by
  rw [boot_fresh]
  have found : Run (FirstRun.Step base64Url) fresh [.visited true true] { fresh with unlinking := 1 } :=
    Run.nil.snoc (.request rfl)
  constructor
  · have both : Run (FirstRun.Step base64Url) fresh [.visited true true, .visited true true]
        { fresh with unlinking := 2 } := found.snoc (.request rfl)
    have settled := (both.snoc (.removed rfl rfl)).snoc (.failed rfl)
    exact ⟨_, _, (settled.snoc (.resumed rfl)).snoc (.resumed rfl), by simp, rfl⟩
  · have failed : Run (FirstRun.Step base64Url) fresh
        [.visited true true, .deleted false, .revealed fresh.adminToken] fresh :=
      (found.snoc (.failed rfl)).snoc (.resumed rfl)
    exact ⟨_, _, failed.trans fresh_visited, rfl, rfl⟩

end Symbolic

/-! ## One marker -/

/-- Nothing is generated where there is a token. -/
theorem not_provisions (l : Launch) (h : dir.token.isSome) : provisions l dir = false := by
  obtain ⟨text, htext⟩ := Option.isSome_iff_exists.mp h
  simp [provisions, htext]

/-- **No second marker.** Once the token is in its file no restart generates another one, so that the marker of the first
    start is the only one there ever is. -/
theorem run_made (hdir : (FirstRun.boot U l dir).dir.token.isSome) (run : Run (FirstRun.Step U) (.boot U l dir) tr s) :
    s.dir.token.isSome ∧ FirstRunEvent.restart true ∉ tr := by
  refine run.invariant (I := fun tr s => s.dir.token.isSome ∧ .restart true ∉ tr) ⟨hdir, by simp⟩ ?_
  intro tr s e s' _ ih hstep
  obtain ⟨htoken, hmade⟩ := ih
  cases hstep with
  | request hrequest =>
      rcases FirstRun.request_cases hrequest with ⟨rfl, _, rfl⟩ | ⟨rfl, _, rfl⟩
      · exact ⟨htoken, by simp [hmade]⟩
      · exact ⟨htoken, by simp [hmade]⟩
  | removed => exact ⟨htoken, by simp [hmade]⟩
  | failed => exact ⟨htoken, by simp [hmade]⟩
  | resumed => exact ⟨htoken, by simp [hmade]⟩
  | restart l =>
      have hnot := not_provisions l htoken
      constructor
      · show (provisionAdminToken U l s.dir).2.token.isSome
        rw [provisionAdminToken_of_not hnot]
        exact htoken
      · rw [hnot]
        simp [hmade]

end Island
end VpnPi
