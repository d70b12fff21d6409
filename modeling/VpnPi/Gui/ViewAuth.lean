import Mathlib.Data.List.DropRight
import Mathlib.Order.Defs.LinearOrder
import VpnPi.Async.Service
import VpnPi.Js.OrdMap
import VpnPi.Python.Json

/-!
# `Gui.ViewAuth` — who may read the feeds of a node (`app/peers.py`, `app/viewauth.py`, `app/main.py`)

A feed is for the peers of the allowlist, and on a node with a view password for those of them that carry a session token.
`POST /api/login` mints a token; it is kept in memory with its expiry, and dropped when a later login or a reader finds it
expired. `Sessions` is what that is for: the expiry of every token since the start of the process, with nothing dropped.

* `read_answered_iff` — a reader is let through exactly if its token was minted by a login with the right password in this
  process, and has not expired.

Times are the elements of a linear order, and `now + _TTL_S` is a function of it. A handler runs to its end before the next.
-/

namespace VpnPi
namespace Gui

open Async Js Python

/-! ## Text -/

/-- `str.isspace`, of one code point. -/
def isSpace (c : Nat) : Bool :=
  (0x09 ≤ c && c ≤ 0x0d) || (0x1c ≤ c && c ≤ 0x20) || c = 0x85 || c = 0xa0 || c = 0x1680 || (0x2000 ≤ c && c ≤ 0x200a)
    || c = 0x2028 || c = 0x2029 || c = 0x202f || c = 0x205f || c = 0x3000

/-- `str.strip()`. -/
def strip (s : Str) : Str := (s.dropWhile isSpace).rdropWhile isSpace

/-! ## `app/peers.py` -/

def loopback : List Str := [lit "127.0.0.1", lit "::1"]

structure ViewConfig (τ : Type) where
  /-- `PEERS`. -/
  peers    : List Str
  /-- `GUI_VIEW_PASSWORD`, unless it is unset or empty. -/
  password : Option Str
  /-- `now + _TTL_S`. -/
  expiry   : τ → τ

variable {τ : Type} [LinearOrder τ] (cfg : ViewConfig τ)

omit [LinearOrder τ] in
/-- `resolve`. -/
def resolve (clientIp : Option Str) : Option Str :=
  match clientIp with
  | none => none
  | some ip => if ip ∈ loopback ∨ ip ∈ cfg.peers then some ip else none

/-! ## `app/viewauth.py` -/

/-- `secrets.compare_digest`, which takes no text outside ASCII; `none` is a `TypeError`. -/
def compareDigest (a b : Str) : Option Bool :=
  if a.all (· < 0x80) ∧ b.all (· < 0x80) then some (a = b) else none

omit [LinearOrder τ] in
def checkPassword (pw : Str) : Option Bool :=
  match cfg.password with
  | none => some false
  | some p => compareDigest pw p

/-- `_bearer`, of the header, or of the empty text if there is none. -/
def bearer (authorization : Str) : Option Str :=
  if (lit "Bearer ").isPrefixOf authorization then
    let token := strip (authorization.drop (lit "Bearer ").length)
    if token = [] then none else some token
  else none

/-- `_TOKENS`. -/
abbrev Tokens (τ : Type) := OrdMap Str τ

/-- `issue_token`; the token is what `secrets.token_urlsafe` draws. -/
def issueToken (tokens : Tokens τ) (now : τ) (token : Str) : Tokens τ :=
  (tokens.filter fun _ exp => ¬exp ≤ now).set token (cfg.expiry now)

/-- `require_view`: whether it lets the request through. -/
def requireView (tokens : Tokens τ) (authorization : Str) (now : τ) : Bool × Tokens τ :=
  if cfg.password = none then (true, tokens)
  else
    let token := bearer authorization
    match token, token.bind tokens.get with
    | none, _ => (false, tokens)
    | some _, none => (false, tokens)
    | some token, some exp => if exp ≤ now then (false, tokens.delete token) else (true, tokens)

/-! ## `app/main.py` -/

inductive ViewRequest (τ : Type) where
  | login (password : Str) (now : τ) (token : Str)
  /-- One of the gated reads. -/
  | read (client : Option Str) (authorization : Str) (now : τ)
  | restart

inductive ViewResponse where
  | token (token : Str)
  | answered
  | unauthorized
  | forbidden
  | serverError
  | restarted
  deriving DecidableEq

def serveView : Service (Tokens τ) (ViewRequest τ) ViewResponse
  | tokens, .login password now token =>
      match checkPassword cfg password with
      | none => (.serverError, tokens)
      | some false => (.unauthorized, tokens)
      | some true => (.token token, issueToken cfg tokens now token)
  | tokens, .read client authorization now =>
      match resolve cfg client with
      | none => (.forbidden, tokens)
      | some _ =>
          let viewed := requireView cfg tokens authorization now
          (if viewed.1 then .answered else .unauthorized, viewed.2)
  | _, .restart => (.restarted, .empty)

def ViewRequest.readings : ViewRequest τ → List τ
  | login _ now _ => [now]
  | read _ _ now => [now]
  | restart => []

/-! ## What the tokens are for -/

/-- The login gives out the token. -/
def Mints (c : ViewRequest τ) (t : τ) (token : Str) : Prop := ∃ pw, c = .login pw t token ∧ checkPassword cfg pw = some true

/-- The token was last minted at `t`, in the present process. -/
def MintedAt (calls : List (ViewRequest τ)) (token : Str) (t : τ) : Prop :=
  ∃ pre c post, calls = pre ++ c :: post ∧ Mints cfg c t token ∧ .restart ∉ post ∧ ∀ c' ∈ post, ∀ t', ¬Mints cfg c' t' token

variable {cfg} {calls : List (ViewRequest τ)} {token : Str} {t : τ} {tokens : Tokens τ}

omit [LinearOrder τ] in
theorem MintedAt.snoc_iff (c : ViewRequest τ) : MintedAt cfg (calls ++ [c]) token t ↔
    Mints cfg c t token ∨ MintedAt cfg calls token t ∧ c ≠ .restart ∧ ∀ t', ¬Mints cfg c t' token := by
  constructor
  · rintro ⟨pre, c', post, heq, hmints, hrestart, hlast⟩
    rcases concat_split_cons heq with ⟨rfl, rfl, rfl⟩ | ⟨post', rfl, rfl⟩
    · exact .inl hmints
    · rw [List.mem_append, not_or] at hrestart
      obtain ⟨hpost, hc⟩ := List.forall_mem_append.mp hlast
      refine .inr ⟨⟨pre, c', post', rfl, hmints, hrestart.1, hpost⟩, ?_, hc c (List.mem_singleton_self c)⟩
      exact fun h => hrestart.2 (h ▸ List.mem_singleton_self c)
  · rintro (hmints | ⟨⟨pre, c', post, rfl, hmints, hrestart, hlast⟩, hc, hnone⟩)
    · exact ⟨calls, c, [], rfl, hmints, List.not_mem_nil, fun _ h => absurd h List.not_mem_nil⟩
    · refine ⟨pre, c', post ++ [c], by simp, hmints, ?_, ?_⟩
      · rw [List.mem_append, not_or]
        exact ⟨hrestart, fun h => hc (List.mem_singleton.mp h).symm⟩
      · exact List.forall_mem_append.mpr ⟨hlast, List.forall_mem_singleton.mpr hnone⟩

/-- **What the process holds**: every token with the expiry of its last login, except some whose expiry the clock has
    passed. -/
structure Held (cfg : ViewConfig τ) (calls : List (ViewRequest τ)) (tokens : Tokens τ) : Prop where
  minted : ∀ token exp, tokens.get token = some exp → ∃ t, MintedAt cfg calls token t ∧ exp = cfg.expiry t
  kept   : ∀ token t, MintedAt cfg calls token t →
    tokens.get token = some (cfg.expiry t) ∨ ∃ r ∈ calls.flatMap ViewRequest.readings, cfg.expiry t ≤ r

theorem Held.new : Held cfg [] (.empty : Tokens τ) := by
  constructor
  · intro token exp hget
    cases hget
  · rintro token t ⟨pre, c, post, heq, _⟩
    exact absurd heq (by simp)

/-- A call that neither mints nor restarts, and drops only what has expired. -/
theorem Held.shrink (h : Held cfg calls tokens) {c : ViewRequest τ} (hc : c ≠ .restart)
    (hmints : ∀ t token, ¬Mints cfg c t token) {tokens' : Tokens τ}
    (hsub : ∀ token exp, tokens'.get token = some exp → tokens.get token = some exp)
    (hdrop : ∀ token exp, tokens.get token = some exp → tokens'.get token = some exp ∨ ∃ r ∈ c.readings, exp ≤ r) :
    Held cfg (calls ++ [c]) tokens' := by
  constructor
  · intro token exp hget
    obtain ⟨t, ht, hexp⟩ := h.minted token exp (hsub token exp hget)
    exact ⟨t, (MintedAt.snoc_iff c).mpr (.inr ⟨ht, hc, fun t' => hmints t' token⟩), hexp⟩
  · intro token t ht
    rw [List.flatMap_append, List.flatMap_singleton]
    rcases (MintedAt.snoc_iff c).mp ht with hm | ⟨ht, -⟩
    · exact absurd hm (hmints t token)
    · rcases h.kept token t ht with hget | ⟨r, hr, hle⟩
      · rcases hdrop token _ hget with hget | ⟨r, hr, hle⟩
        · exact .inl hget
        · exact .inr ⟨r, List.mem_append_right _ hr, hle⟩
      · exact .inr ⟨r, List.mem_append_left _ hr, hle⟩

theorem Held.login (h : Held cfg calls tokens) {pw : Str} (now : τ) (token : Str) (hpw : checkPassword cfg pw = some true) :
    Held cfg (calls ++ [.login pw now token]) (issueToken cfg tokens now token) := by
  have hmints : Mints cfg (.login pw now token) now token := ⟨pw, rfl, hpw⟩
  constructor
  · intro token' exp hget
    rw [issueToken, OrdMap.get_set] at hget
    split at hget
    · next heq =>
        subst heq
        exact ⟨now, (MintedAt.snoc_iff _).mpr (.inl hmints), (Option.some.inj hget).symm⟩
    · next hne =>
        obtain ⟨t, ht, hexp⟩ := h.minted token' exp (OrdMap.get_filter.mp hget).1
        refine ⟨t, (MintedAt.snoc_iff _).mpr (.inr ⟨ht, by simp, ?_⟩), hexp⟩
        rintro t' ⟨pw', heq, _⟩
        cases heq
        exact hne rfl
  · intro token' t ht
    rw [issueToken, OrdMap.get_set]
    rcases (MintedAt.snoc_iff _).mp ht with ⟨pw', heq, _⟩ | ⟨ht, -, hother⟩
    · cases heq
      rw [if_pos rfl]
      exact .inl rfl
    · have hne : token' ≠ token := by
        rintro rfl
        exact hother now hmints
      rw [if_neg hne, List.flatMap_append, List.flatMap_singleton]
      rcases h.kept token' t ht with hget | ⟨r, hr, hle⟩
      · by_cases hexpired : cfg.expiry t ≤ now
        · -- pruned by this login
          exact .inr ⟨now, List.mem_append_right _ (List.mem_singleton_self now), hexpired⟩
        · exact .inl (OrdMap.get_filter.mpr ⟨hget, decide_eq_true hexpired⟩)
      · exact .inr ⟨r, List.mem_append_left _ hr, hle⟩

theorem Held.view (h : Held cfg calls tokens) (client : Option Str) (authorization : Str) (now : τ) :
    Held cfg (calls ++ [.read client authorization now]) (requireView cfg tokens authorization now).2 := by
  have hmints : ∀ t token, ¬Mints cfg (.read client authorization now) t token := by
    rintro t token ⟨pw, heq, _⟩
    cases heq
  have hsame : Held cfg (calls ++ [.read client authorization now]) tokens :=
    h.shrink (fun h => by cases h) hmints (fun _ _ hget => hget) fun _ _ hget => .inl hget
  unfold requireView
  split
  · exact hsame
  · dsimp only
    split
    · exact hsame
    · exact hsame
    · next token exp hbearer hget =>
        rw [hbearer] at hget
        split
        · next hexpired =>
            refine h.shrink (fun h => by cases h) hmints (fun _ _ hget' => OrdMap.get_of_get_delete hget') fun token' exp' hget' => ?_
            by_cases hne : token' = token
            · subst hne
              obtain rfl := Option.some.inj (hget.symm.trans hget')
              exact .inr ⟨now, List.mem_singleton_self now, hexpired⟩
            · exact .inl ((OrdMap.get_delete_ne hne).trans hget')
        · exact hsame

/-- **Every request** keeps the tokens. -/
theorem Held.serve (h : Held cfg calls tokens) (c : ViewRequest τ) : Held cfg (calls ++ [c]) (serveView cfg tokens c).2 := by
  have hsame (hc : c ≠ .restart) (hmints : ∀ t token, ¬Mints cfg c t token) : Held cfg (calls ++ [c]) tokens :=
    h.shrink hc hmints (fun _ _ hget => hget) fun _ _ hget => .inl hget
  cases c with
  | login pw now token =>
      have hwrong (hpw : checkPassword cfg pw ≠ some true) :
          ∀ t token', ¬Mints cfg (.login pw now token) t token' := by
        rintro t token' ⟨pw', heq, hpw'⟩
        cases heq
        exact hpw hpw'
      show Held cfg _ (serveView cfg tokens (.login pw now token)).2
      unfold serveView
      dsimp only
      split
      · next hpw => exact hsame (by simp) (hwrong (by simp [hpw]))
      · next hpw => exact hsame (by simp) (hwrong (by simp [hpw]))
      · next hpw => exact h.login now token hpw
  | read client authorization now =>
      show Held cfg _ (serveView cfg tokens (.read client authorization now)).2
      unfold serveView
      dsimp only
      split
      · refine hsame (by simp) ?_
        rintro t token ⟨pw, heq, _⟩
        cases heq
      · exact h.view client authorization now
  | restart =>
      constructor
      · intro token exp hget
        cases hget
      · intro token t ht
        rcases (MintedAt.snoc_iff _).mp ht with ⟨pw, heq, _⟩ | ⟨-, hc, -⟩
        · cases heq
        · exact absurd rfl hc

theorem held_after (calls : List (ViewRequest τ)) : Held cfg calls (after (serveView cfg) .empty calls) := by
  induction calls using List.reverseRecOn with
  | nil => exact .new
  | append_singleton calls c ih =>
      rw [after_snoc]
      exact ih.serve c

/-- What `require_view` asks of the tokens. -/
theorem requireView_iff {authorization : Str} {now : τ} : (requireView cfg tokens authorization now).1 = true ↔
    cfg.password = none ∨ ∃ token exp, bearer authorization = some token ∧ tokens.get token = some exp ∧ now < exp := by
  unfold requireView
  split
  · next hnone => exact iff_of_true rfl (.inl hnone)
  · next hsome =>
      rw [or_iff_right hsome]
      dsimp only
      split
      · next hbearer => simp [hbearer]
      · next token hbearer hget =>
          rw [hbearer] at hget
          have hget' : tokens.get token = none := hget
          simp [hbearer, hget']
      · next token exp hbearer hget =>
          rw [hbearer] at hget
          have hget' : tokens.get token = some exp := hget
          by_cases hle : exp ≤ now
          · simp [hbearer, hget', hle]
          · simp [hbearer, hget', hle, not_le.mp hle]

/-- The clock never goes back. -/
def TicksOn (calls : List (ViewRequest τ)) : Prop := (calls.flatMap ViewRequest.readings).Pairwise (· ≤ ·)

/-- **Who is let through**: a peer of the allowlist; and if there is a view password, with the token of a login that gave
    the password, the last to give out that token, since the process started, whose time is not over. -/
theorem read_answered_iff (cfg : ViewConfig τ) {calls pre post : List (ViewRequest τ)} {client : Option Str}
    {authorization : Str} {now : τ} (hticks : TicksOn calls) (hsplit : calls = pre ++ .read client authorization now :: post) :
    (serveView cfg (after (serveView cfg) .empty pre) (.read client authorization now)).1 = .answered ↔
      (∃ ip, client = some ip ∧ (ip ∈ loopback ∨ ip ∈ cfg.peers)) ∧
        (cfg.password = none ∨
          ∃ token t, bearer authorization = some token ∧ MintedAt cfg pre token t ∧ now < cfg.expiry t) := by
  have hheld : Held cfg pre _ := held_after pre
  generalize after (serveView cfg) .empty pre = tokens at hheld
  have hpast : ∀ r ∈ pre.flatMap ViewRequest.readings, r ≤ now := by
    intro r hr
    rw [hsplit, TicksOn, List.flatMap_append, List.flatMap_cons] at hticks
    exact (List.pairwise_append.mp hticks).2.2 r hr now (List.mem_append_left _ (List.mem_singleton_self now))
  have htoken : (∃ token exp, bearer authorization = some token ∧ tokens.get token = some exp ∧ now < exp) ↔
      ∃ token t, bearer authorization = some token ∧ MintedAt cfg pre token t ∧ now < cfg.expiry t := by
    constructor
    · rintro ⟨token, exp, hbearer, hget, hlt⟩
      obtain ⟨t, ht, rfl⟩ := hheld.minted token exp hget
      exact ⟨token, t, hbearer, ht, hlt⟩
    · rintro ⟨token, t, hbearer, ht, hlt⟩
      rcases hheld.kept token t ht with hget | ⟨r, hr, hle⟩
      · exact ⟨token, _, hbearer, hget, hlt⟩
      · exact absurd (lt_of_lt_of_le hlt hle) (not_lt.mpr (hpast r hr))
  rw [← htoken, ← requireView_iff]
  unfold serveView resolve
  dsimp only
  cases client with
  | none => simp
  | some ip =>
      by_cases hip : ip ∈ loopback ∨ ip ∈ cfg.peers
      · cases (requireView cfg tokens authorization now).1 <;> simp [hip]
      · simp [hip]

namespace Symbolic

/-- A master whose tokens last ten ticks. -/
def master : ViewConfig Nat := ⟨[lit "10.42.0.6"], some (lit "open"), (· + 10)⟩

/-- The builder logs in, and reads with the token before it expires. -/
theorem builder_reads : (serveView master (after (serveView master) .empty [.login (lit "open") 3 (lit "x7")])
    (.read (some (lit "10.42.0.6")) (lit "Bearer x7") 12)).1 = .answered := by
  have hminted : MintedAt master [.login (lit "open") 3 (lit "x7")] (lit "x7") 3 := by
    refine ⟨[], _, [], rfl, ⟨lit "open", rfl, by decide⟩, List.not_mem_nil, ?_⟩
    intro c hc
    cases hc
  have hticks : TicksOn ([.login (lit "open") 3 (lit "x7"), .read (some (lit "10.42.0.6")) (lit "Bearer x7") 12]
      : List (ViewRequest Nat)) := by
    show [3, 12].Pairwise (· ≤ ·)
    simp
  apply (read_answered_iff master hticks rfl).mpr
  exact ⟨⟨_, rfl, .inr (List.mem_singleton_self _)⟩, .inr ⟨lit "x7", 3, by decide, hminted, by decide⟩⟩

end Symbolic

end Gui
end VpnPi
