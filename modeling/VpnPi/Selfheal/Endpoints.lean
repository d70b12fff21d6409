import VpnPi.Selfheal.Loop

/-!
# `Selfheal.Endpoints` — where a re-asserted endpoint comes from

The cache holds, for a peer that is still there, the endpoint it had when it was last seen healthy with one.
`Sourced` says this of the whole run so far; every tick keeps it (`Step.sourced`), whether it overwrites the
entry, keeps it, or drops it with the peer. What `remediate` pushes is a cache entry.
-/

namespace VpnPi
namespace Selfheal

open Js Async

variable {f : Flags} {st st' : LoopState} {t : Tick} {key ep : JsString}

/-- The tick read the peer with that endpoint and classified it `ok` or `restored`. -/
def KnownGood (t : Tick) (key ep : JsString) : Prop :=
  (∃ peers p, t.read = .ok peers ∧ p ∈ peers ∧ p.publicKey = key ∧ p.endpoint = ep) ∧
    ∃ s ∈ t.statuses, s.peer = key ∧ s.endpoint = ep ∧ (s.state = .ok ∨ s.state = .restored)

/-- Every successful read among the ticks has the peer. -/
def PresentThroughout (ticks : List Tick) (key : JsString) : Prop :=
  ∀ t ∈ ticks, ∀ peers, t.read = .ok peers → key ∈ peers.map PeerState.publicKey

/-- Some tick `m` of the run saw the peer healthy with that endpoint; the peer has been there ever since, and
    was at no later tick seen healthy with another endpoint. -/
def Sourced (tr : List Tick) (key ep : JsString) : Prop :=
  ∃ pre m post, tr = pre ++ m :: post ∧ KnownGood m key ep ∧ PresentThroughout (m :: post) key ∧
    ∀ t ∈ post, ∀ ep', KnownGood t key ep' → ep' ≠ [] → ep' = ep

/-- The cache holds endpoints with a source. -/
def CacheInv (tr : List Tick) (st : LoopState) : Prop :=
  ∀ key ep, st.endpointCache.get key = some ep → ep ≠ [] ∧ Sourced tr key ep

theorem Sourced.extend {tr : List Tick} (h : Sourced tr key ep)
    (hthere : ∀ peers, t.read = .ok peers → key ∈ peers.map PeerState.publicKey)
    (hsame : ∀ ep', KnownGood t key ep' → ep' ≠ [] → ep' = ep) : Sourced (tr ++ [t]) key ep := by
  obtain ⟨pre, m, post, rfl, hgood, hpresent, hother⟩ := h
  refine ⟨pre, m, post ++ [t], by rw [List.append_assoc, List.cons_append], hgood, ?_, ?_⟩
  · intro t' ht'
    rcases List.mem_append.mp (List.cons_append ▸ ht' : t' ∈ (m :: post) ++ [t]) with h | h
    · exact hpresent t' h
    · rw [List.mem_singleton.mp h]
      exact hthere
  · intro t' ht'
    rcases List.mem_append.mp ht' with h | h
    · exact hother t' h
    · rw [List.mem_singleton.mp h]
      exact hsame

/-! ## The cache -/

/-- The entry of a key after `cacheHealthy`: the endpoint of a healthy status, or, if no healthy status of the
    key has an endpoint, what it was. -/
theorem get_cacheHealthy {cache : OrdMap JsString JsString} {statuses : List PeerStatus}
    (h : (cacheHealthy cache statuses).get key = some ep) :
    (ep ≠ [] ∧ ∃ s ∈ statuses, s.peer = key ∧ s.endpoint = ep ∧ (s.state = .ok ∨ s.state = .restored)) ∨
    (cache.get key = some ep ∧ ∀ s ∈ statuses, s.peer = key → (s.state = .ok ∨ s.state = .restored) →
      s.endpoint = []) := by
  induction statuses generalizing cache with
  | nil => exact Or.inr ⟨h, fun s hs => absurd hs List.not_mem_nil⟩
  | cons s statuses ih =>
      rcases ih h with ⟨hne, s', hs', hrest⟩ | ⟨hget, hrest⟩
      · exact Or.inl ⟨hne, s', List.mem_cons_of_mem _ hs', hrest⟩
      · by_cases hset : (s.state = .ok ∨ s.state = .restored) ∧ s.endpoint ≠ []
        · simp only [if_pos hset, OrdMap.get_set] at hget
          by_cases hk : key = s.peer
          · rw [if_pos hk] at hget
            obtain rfl := Option.some.inj hget
            exact Or.inl ⟨hset.2, s, List.mem_cons_self .., hk.symm, rfl, hset.1⟩
          · rw [if_neg hk] at hget
            refine Or.inr ⟨hget, fun s' hs' hpeer hgood => ?_⟩
            rcases List.mem_cons.mp hs' with rfl | hs'
            · exact absurd hpeer.symm hk
            · exact hrest s' hs' hpeer hgood
        · simp only [if_neg hset] at hget
          refine Or.inr ⟨hget, fun s' hs' hpeer hgood => ?_⟩
          rcases List.mem_cons.mp hs' with rfl | hs'
          · exact not_not.mp fun hne => hset ⟨hgood, hne⟩
          · exact hrest s' hs' hpeer hgood

theorem Step.sourced {tr : List Tick} (h : Step f st t st') (hi : CacheInv tr st) :
    CacheInv (tr ++ [t]) st' := by
  intro key ep hget
  rcases h.failed_or_read with ⟨⟨err, hread⟩, hstatuses, rfl, _⟩ | ⟨peers, hread, ha⟩
  · obtain ⟨hne, hsource⟩ := hi key ep hget
    refine ⟨hne, hsource.extend (fun peers hok => nomatch hread.symm.trans hok) ?_⟩
    rintro ep' ⟨_, s, hs, _⟩
    rw [hstatuses] at hs
    cases hs
  · have hkeys : t.statuses.map PeerStatus.peer = peers.map PeerState.publicKey := by
      rw [ha.statuses, List.map_map]
      rfl
    rw [ha.cache] at hget
    rcases get_cacheHealthy hget with ⟨hne, hgood⟩ | ⟨hold, hrest⟩
    · obtain ⟨s, hs, hpeer, hep, _⟩ := id hgood
      rw [ha.statuses] at hs
      obtain ⟨p, hp, rfl⟩ := List.mem_map.mp hs
      refine ⟨hne, tr, t, [], rfl, ⟨⟨peers, p, hread, hp, hpeer, hep⟩, hgood⟩, fun t' ht' peers' hok => ?_,
        fun _ h => absurd h List.not_mem_nil⟩
      obtain rfl := List.mem_singleton.mp ht'
      obtain rfl := Except.ok.inj (hread.symm.trans hok)
      exact hpeer ▸ List.mem_map_of_mem hp
    · -- an older entry: its peer is still there and has shown no other endpoint while healthy
      obtain ⟨hold, hthere⟩ := OrdMap.get_filter.mp hold
      obtain ⟨hne, hsource⟩ := hi key ep hold
      refine ⟨hne, hsource.extend (fun peers' hok => ?_) ?_⟩
      · obtain rfl := Except.ok.inj (hread.symm.trans hok)
        rw [← hkeys]
        exact List.contains_iff_mem.mp hthere
      · rintro ep' ⟨_, s, hs, hpeer, rfl, hgood⟩ hne'
        exact absurd (hrest s hs hpeer hgood) hne'

theorem cacheInv_of_run {tr : List Tick} (run : Run (Step f) .empty tr st) : CacheInv tr st :=
  run.invariant (fun _ _ h => nomatch h) fun _ _ _ _ _ ih h => h.sourced ih

/-- **Only known-good endpoints are re-asserted.** -/
theorem reassert_known_good (f : Flags) {tr : List Tick} {st : LoopState}
    (run : Run (Step f) .empty (tr ++ [t]) st) (hcall : (key, ep) ∈ callsOf t.out) :
    ep ≠ [] ∧ Sourced (tr ++ [t]) key ep := by
  obtain ⟨s, hpre, hstep⟩ := run.of_concat
  rcases hstep.failed_or_read with ⟨_, _, _, hnil, _⟩ | ⟨peers, hread, ha⟩
  · rw [hnil] at hcall
    cases hcall
  · obtain ⟨_, _, _, hget, _⟩ := ha.mem_calls hcall
    exact cacheInv_of_run run key ep hget

/-- Three minutes into its outage `sirius` gets the endpoint it had at noon. -/
theorem outage_known_good : ∃ tr t, (sirius.publicKey, sirius.endpoint) ∈ callsOf t.out ∧
    Sourced (tr ++ [t]) sirius.publicKey sirius.endpoint := by
  have run := run_of_ticks spoke quiet (outage.take 1)
  have hstep : Step spoke _ _ _ := .mk ⟨noon.wall + 180 * second, noon.mono + 180 * second⟩ (.ok [sirius]) quiet
    (ticks spoke quiet (outage.take 1) .empty).2
  have hcall : (sirius.publicKey, sirius.endpoint) ∈ callsOf
      (tick spoke ⟨noon.wall + 180 * second, noon.mono + 180 * second⟩ (.ok [sirius]) quiet
        (ticks spoke quiet (outage.take 1) .empty).2).1 := by decide +kernel
  exact ⟨_, _, hcall, (reassert_known_good spoke (run.snoc hstep) hcall).2⟩

end Selfheal
end VpnPi
