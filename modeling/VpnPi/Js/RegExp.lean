import Mathlib.Computability.Language
import VpnPi.Js.Text

/-!
# `Js.RegExp` — regular expressions, anchored at both ends

`run` is the backtracking matcher of the language: the matches at the start of a string, in the order in which they are
tried, each with its captures and with what it leaves of the string. `Matches` says the same without an order, and
`mem_run` that the two agree. An expression is `Sharp` where what follows it decides every choice, so that it has one
match at most; between the ends of a string a sharp expression captures exactly what `Matches` says (`exec_eq_some_iff`).

A quantifier applies to a character class, or is `?`.
-/

namespace VpnPi
namespace Js

inductive RegExp where
  | lit (text : JsString)
  /-- `c{lo,hi}`, greedy; without an upper bound for `none`. -/
  | reps (c : UInt16 → Bool) (lo : Nat) (hi : Option Nat)
  | seq (r r' : RegExp)
  | alt (r r' : RegExp)
  | group (r : RegExp)

namespace RegExp

/-- `c`, `c*`, `c+`, `c{n}`, `r?`, and a sequence. -/
def one (c : UInt16 → Bool) : RegExp := reps c 1 (some 1)
def star (c : UInt16 → Bool) : RegExp := reps c 0 none
def plus (c : UInt16 → Bool) : RegExp := reps c 1 none
def times (n : Nat) (c : UInt16 → Bool) : RegExp := reps c n (some n)
def opt (r : RegExp) : RegExp := alt r (lit [])
def seqs : List RegExp → RegExp := List.foldr seq (lit [])

/-- The texts of the groups, `none` (`undefined`) for a group that took no part. -/
abbrev Captures := List (Option JsString)

/-- The number of groups. -/
def groups : RegExp → Nat
  | lit _ => 0
  | reps _ _ _ => 0
  | seq r r' => r.groups + r'.groups
  | alt r r' => r.groups + r'.groups
  | group r => r.groups + 1

/-! ## The matcher -/

/-- What `c{lo,hi}` leaves: after the most units first. -/
def runReps (c : UInt16 → Bool) : Nat → Option Nat → JsString → List JsString
  | lo, _, [] => if lo = 0 then [[]] else []
  | lo, hi, u :: s =>
      (if c u = true ∧ hi ≠ some 0 then runReps c (lo - 1) (hi.map fun n => n - 1) s else [])
        ++ (if lo = 0 then [u :: s] else [])

def run : RegExp → JsString → List (Captures × JsString)
  | lit text, s => if text <+: s then [([], s.drop text.length)] else []
  | reps c lo hi, s => (runReps c lo hi s).map fun t => ([], t)
  | seq r r', s => (r.run s).flatMap fun x => (r'.run x.2).map fun y => (x.1 ++ y.1, y.2)
  | alt r r', s =>
      (r.run s).map (fun x => (x.1 ++ List.replicate r'.groups none, x.2))
        ++ (r'.run s).map fun x => (List.replicate r.groups none ++ x.1, x.2)
  | group r, s => (r.run s).map fun x => (some (s.take (s.length - x.2.length)) :: x.1, x.2)

/-- The groups of `/^r$/.exec(s)`. -/
def exec (r : RegExp) (s : JsString) : Option Captures :=
  ((r.run s).find? fun x => x.2.isEmpty).map Prod.fst

/-! ## What matches what -/

inductive Matches : RegExp → JsString → Captures → Prop
  | lit (text : JsString) : Matches (lit text) text []
  | reps {c : UInt16 → Bool} {lo : Nat} {hi : Option Nat} {m : JsString} (least : lo ≤ m.length)
      (most : ∀ n, hi = some n → m.length ≤ n) (all : ∀ u ∈ m, c u = true) : Matches (reps c lo hi) m []
  | seq {r r' : RegExp} {m m' : JsString} {caps caps' : Captures} (h : Matches r m caps) (h' : Matches r' m' caps') :
      Matches (seq r r') (m ++ m') (caps ++ caps')
  | left {r r' : RegExp} {m : JsString} {caps : Captures} (h : Matches r m caps) :
      Matches (alt r r') m (caps ++ List.replicate r'.groups none)
  | right {r r' : RegExp} {m : JsString} {caps : Captures} (h : Matches r' m caps) :
      Matches (alt r r') m (List.replicate r.groups none ++ caps)
  | group {r : RegExp} {m : JsString} {caps : Captures} (h : Matches r m caps) : Matches (group r) m (some m :: caps)

theorem mem_runReps {c : UInt16 → Bool} {s t : JsString} {lo : Nat} {hi : Option Nat} :
    t ∈ runReps c lo hi s ↔ ∃ m, s = m ++ t ∧ lo ≤ m.length ∧ (∀ n, hi = some n → m.length ≤ n) ∧ ∀ u ∈ m, c u = true := by
  induction s generalizing lo hi with
  | nil =>
      rw [runReps]
      constructor
      · intro h
        split at h
        · next hlo =>
            obtain rfl := List.mem_singleton.mp h
            exact ⟨[], rfl, Nat.le_of_eq hlo, fun _ _ => Nat.zero_le _, nofun⟩
        · cases h
      · rintro ⟨m, hs, hleast, -⟩
        obtain ⟨rfl, rfl⟩ := List.append_eq_nil_iff.mp hs.symm
        rw [if_pos (Nat.le_zero.mp hleast)]
        exact List.mem_singleton_self _
  | cons u s ih =>
      rw [runReps, List.mem_append]
      constructor
      · rintro (h | h)
        · split at h
          · next hu =>
              obtain ⟨m, rfl, hleast, hmost, hall⟩ := ih.mp h
              refine ⟨u :: m, rfl, ?_, fun n hn => ?_, List.forall_mem_cons.mpr ⟨hu.1, hall⟩⟩
              · rw [List.length_cons]
                omega
              · have hm := hmost (n - 1) (by rw [hn]; rfl)
                have hpos : n ≠ 0 := fun h0 => hu.2 (by rw [hn, h0])
                rw [List.length_cons]
                omega
          · cases h
        · split at h
          · next hlo =>
              obtain rfl := List.mem_singleton.mp h
              exact ⟨[], rfl, Nat.le_of_eq hlo, fun _ _ => Nat.zero_le _, nofun⟩
          · cases h
      · rintro ⟨m, hs, hleast, hmost, hall⟩
        cases m with
        | nil =>
            rw [List.nil_append] at hs
            rw [if_pos (Nat.le_zero.mp hleast), hs]
            exact .inr (List.mem_singleton_self _)
        | cons v m =>
            obtain ⟨rfl, rfl⟩ := List.cons.inj hs
            obtain ⟨hu, hall⟩ := List.forall_mem_cons.mp hall
            have hpos : hi ≠ some 0 := fun h0 => absurd (hmost 0 h0) (Nat.not_succ_le_zero _)
            rw [if_pos ⟨hu, hpos⟩]
            rw [List.length_cons] at hleast hmost
            -- one unit is taken, so both bounds are one lower
            refine .inl (ih.mpr ⟨m, rfl, by omega, fun n hn => ?_, hall⟩)
            obtain ⟨k, rfl, rfl⟩ := Option.map_eq_some_iff.mp hn
            have := hmost k rfl
            omega

/-- **The matcher finds what matches.** -/
theorem mem_run {r : RegExp} {s t : JsString} {caps : Captures} :
    (caps, t) ∈ r.run s ↔ ∃ m, s = m ++ t ∧ Matches r m caps := by
  -- the rest of the input varies, so that the parts of a sequence can be joined
  induction r generalizing s t caps with
  | lit text =>
      rw [run]
      constructor
      · intro h
        split at h
        · next hp =>
            obtain ⟨rest, rfl⟩ := hp
            obtain ⟨rfl, rfl⟩ := Prod.mk.inj (List.mem_singleton.mp h)
            rw [List.drop_left]
            exact ⟨text, rfl, .lit text⟩
        · cases h
      · rintro ⟨_, rfl, ⟨⟩⟩
        rw [if_pos (List.prefix_append ..), List.drop_left]
        exact List.mem_singleton_self _
  | reps c lo hi =>
      rw [run, List.mem_map]
      constructor
      · rintro ⟨t', ht, heq⟩
        obtain ⟨rfl, rfl⟩ := Prod.mk.inj heq
        obtain ⟨m, rfl, hleast, hmost, hall⟩ := mem_runReps.mp ht
        exact ⟨m, rfl, .reps hleast hmost hall⟩
      · rintro ⟨m, rfl, hm⟩
        cases hm with
        | reps hleast hmost hall => exact ⟨t, mem_runReps.mpr ⟨m, rfl, hleast, hmost, hall⟩, rfl⟩
  | seq r r' ih ih' =>
      rw [run, List.mem_flatMap]
      constructor
      · rintro ⟨⟨caps₁, t₁⟩, h₁, h⟩
        obtain ⟨⟨caps₂, t₂⟩, h₂, heq⟩ := List.mem_map.mp h
        obtain ⟨rfl, rfl⟩ := Prod.mk.inj heq
        obtain ⟨m₁, rfl, hm₁⟩ := ih.mp h₁
        obtain ⟨m₂, rfl, hm₂⟩ := ih'.mp h₂
        exact ⟨m₁ ++ m₂, (List.append_assoc ..).symm, .seq hm₁ hm₂⟩
      · rintro ⟨_, rfl, hm⟩
        cases hm with
        | @seq _ _ m₁ m₂ caps₁ caps₂ h₁ h₂ =>
            refine ⟨(caps₁, m₂ ++ t), ih.mpr ⟨m₁, List.append_assoc .., h₁⟩, ?_⟩
            exact List.mem_map.mpr ⟨(caps₂, t), ih'.mpr ⟨m₂, rfl, h₂⟩, rfl⟩
  | alt r r' ih ih' =>
      rw [run, List.mem_append, List.mem_map, List.mem_map]
      constructor
      · rintro (⟨⟨caps₁, t₁⟩, h, heq⟩ | ⟨⟨caps₁, t₁⟩, h, heq⟩)
        · obtain ⟨rfl, rfl⟩ := Prod.mk.inj heq
          obtain ⟨m, rfl, hm⟩ := ih.mp h
          exact ⟨m, rfl, .left hm⟩
        · obtain ⟨rfl, rfl⟩ := Prod.mk.inj heq
          obtain ⟨m, rfl, hm⟩ := ih'.mp h
          exact ⟨m, rfl, .right hm⟩
      · rintro ⟨m, rfl, hm⟩
        cases hm with
        | @left _ _ _ caps h => exact .inl ⟨(caps, t), ih.mpr ⟨m, rfl, h⟩, rfl⟩
        | @right _ _ _ caps h => exact .inr ⟨(caps, t), ih'.mpr ⟨m, rfl, h⟩, rfl⟩
  | group r ih =>
      have htake : ∀ m t : JsString, (m ++ t).take ((m ++ t).length - t.length) = m := fun m t => by
        rw [List.length_append, Nat.add_sub_cancel, List.take_left]
      rw [run, List.mem_map]
      constructor
      · rintro ⟨⟨caps₁, t₁⟩, h, heq⟩
        obtain ⟨rfl, rfl⟩ := Prod.mk.inj heq
        obtain ⟨m, rfl, hm⟩ := ih.mp h
        rw [htake]
        exact ⟨m, rfl, .group hm⟩
      · rintro ⟨m, rfl, hm⟩
        cases hm with
        | @group _ _ caps h => exact ⟨(caps, t), ih.mpr ⟨m, rfl, h⟩, by rw [htake]⟩

theorem matches_seq {r r' : RegExp} {m : JsString} {caps : Captures} : Matches (.seq r r') m caps ↔
    ∃ m₁ m₂ caps₁ caps₂, Matches r m₁ caps₁ ∧ Matches r' m₂ caps₂ ∧ m = m₁ ++ m₂ ∧ caps = caps₁ ++ caps₂ := by
  constructor
  · intro h
    cases h with
    | seq h₁ h₂ => exact ⟨_, _, _, _, h₁, h₂, rfl, rfl⟩
  · rintro ⟨_, _, _, _, h₁, h₂, rfl, rfl⟩
    exact .seq h₁ h₂

/-! ## Expressions without groups -/

/-- The units are all of the class, and their number is in the set. -/
def unitsOf (c : UInt16 → Bool) (lengths : Set Nat) : Language UInt16 := {m | m.length ∈ lengths ∧ ∀ u ∈ m, c u = true}

/-- The expression matches the words of the language, and captures nothing. -/
def Reads (r : RegExp) (L : Language UInt16) : Prop := ∀ m caps, Matches r m caps ↔ m ∈ L ∧ caps = []

theorem Reads.lit (text : JsString) : Reads (lit text) {text} := by
  intro m caps
  constructor
  · rintro ⟨⟩
    exact ⟨rfl, rfl⟩
  · rintro ⟨rfl, rfl⟩
    exact .lit _

theorem Reads.reps {c : UInt16 → Bool} {lo : Nat} {hi : Option Nat} {lengths : Set Nat}
    (h : ∀ n, n ∈ lengths ↔ lo ≤ n ∧ ∀ k, hi = some k → n ≤ k) : Reads (reps c lo hi) (unitsOf c lengths) := by
  intro m caps
  constructor
  · intro hm
    cases hm with
    | reps least most all => exact ⟨⟨(h _).mpr ⟨least, most⟩, all⟩, rfl⟩
  · rintro ⟨⟨hlen, all⟩, rfl⟩
    obtain ⟨least, most⟩ := (h _).mp hlen
    exact .reps least most all

theorem Reads.star (c : UInt16 → Bool) : Reads (star c) (unitsOf c Set.univ) :=
  .reps fun n => ⟨fun _ => ⟨Nat.zero_le n, nofun⟩, fun _ => trivial⟩

theorem Reads.plus (c : UInt16 → Bool) : Reads (plus c) (unitsOf c {n | 1 ≤ n}) :=
  .reps fun _ => ⟨fun h => ⟨h, nofun⟩, fun h => h.1⟩

theorem Reads.times (n : Nat) (c : UInt16 → Bool) : Reads (times n c) (unitsOf c {n}) := by
  refine .reps fun k => ⟨?_, fun h => Nat.le_antisymm (h.2 n rfl) h.1⟩
  rintro rfl
  exact ⟨Nat.le_refl k, fun _ h => Nat.le_of_eq (Option.some.inj h)⟩

theorem Reads.upTo (n : Nat) (c : UInt16 → Bool) : Reads (.reps c 1 (some n)) (unitsOf c (Set.Icc 1 n)) :=
  .reps fun _ => ⟨fun h => ⟨h.1, fun _ hk => Option.some.inj hk ▸ h.2⟩, fun h => ⟨h.1, h.2 n rfl⟩⟩

theorem Reads.seq {r r' : RegExp} {L L' : Language UInt16} (h : Reads r L) (h' : Reads r' L') : Reads (seq r r') (L * L') := by
  intro m caps
  rw [Language.mem_mul]
  constructor
  · intro hm
    obtain ⟨m₁, m₂, _, _, h₁, h₂, rfl, rfl⟩ := matches_seq.mp hm
    obtain ⟨hl₁, rfl⟩ := (h _ _).mp h₁
    obtain ⟨hl₂, rfl⟩ := (h' _ _).mp h₂
    exact ⟨⟨m₁, hl₁, m₂, hl₂, rfl⟩, rfl⟩
  · rintro ⟨⟨m₁, h₁, m₂, h₂, rfl⟩, rfl⟩
    exact .seq ((h _ _).mpr ⟨h₁, rfl⟩) ((h' _ _).mpr ⟨h₂, rfl⟩)

theorem Reads.seqs {rs : List RegExp} {Ls : List (Language UInt16)} (h : List.Forall₂ Reads rs Ls) :
    Reads (seqs rs) Ls.prod := by
  induction h with
  | nil => exact .lit []
  | cons h _ ih =>
      rw [List.prod_cons]
      exact .seq h ih

theorem Reads.alt {r r' : RegExp} {L L' : Language UInt16} (h : Reads r L) (h' : Reads r' L') (hr : r.groups = 0)
    (hr' : r'.groups = 0) : Reads (alt r r') (L + L') := by
  intro m caps
  rw [Language.mem_add]
  constructor
  · intro hm
    cases hm with
    | left hm =>
        obtain ⟨hl, rfl⟩ := (h _ _).mp hm
        exact ⟨.inl hl, by rw [hr']; rfl⟩
    | right hm =>
        obtain ⟨hl, rfl⟩ := (h' _ _).mp hm
        exact ⟨.inr hl, by rw [hr]; rfl⟩
  · rintro ⟨hl | hl, rfl⟩
    · have hm : Matches (.alt r r') m ([] ++ List.replicate r'.groups none) := .left ((h _ _).mpr ⟨hl, rfl⟩)
      rwa [hr'] at hm
    · have hm : Matches (.alt r r') m (List.replicate r.groups none ++ []) := .right ((h' _ _).mpr ⟨hl, rfl⟩)
      rwa [hr] at hm

theorem Reads.opt {r : RegExp} {L : Language UInt16} (h : Reads r L) (hr : r.groups = 0) : Reads (opt r) (L + 1) :=
  .alt h (.lit []) hr rfl

theorem Reads.seq_iff {r r' : RegExp} {L : Language UInt16} (h : Reads r L) {m : JsString} {caps : Captures} :
    Matches (.seq r r') m caps ↔ ∃ m₁ ∈ L, ∃ m₂, m = m₁ ++ m₂ ∧ Matches r' m₂ caps := by
  constructor
  · intro hm
    obtain ⟨m₁, m₂, _, _, h₁, h₂, rfl, rfl⟩ := matches_seq.mp hm
    obtain ⟨hl, rfl⟩ := (h _ _).mp h₁
    exact ⟨m₁, hl, m₂, rfl, h₂⟩
  · rintro ⟨m₁, hl, m₂, rfl, h₂⟩
    exact .seq ((h _ _).mpr ⟨hl, rfl⟩ : Matches r m₁ []) h₂

theorem Reads.group_iff {r r' : RegExp} {L : Language UInt16} (h : Reads r L) {m : JsString} {caps : Captures} :
    Matches (.seq (.group r) r') m caps ↔
      ∃ m₁ ∈ L, ∃ m₂ caps₂, m = m₁ ++ m₂ ∧ caps = some m₁ :: caps₂ ∧ Matches r' m₂ caps₂ := by
  constructor
  · intro hm
    obtain ⟨m₁, m₂, _, caps₂, h₁, h₂, rfl, rfl⟩ := matches_seq.mp hm
    cases h₁ with
    | group h₁ =>
        obtain ⟨hl, rfl⟩ := (h _ _).mp h₁
        exact ⟨m₁, hl, m₂, caps₂, rfl, rfl, h₂⟩
  · rintro ⟨m₁, hl, m₂, caps₂, rfl, rfl, h₂⟩
    exact .seq (.group ((h _ _).mpr ⟨hl, rfl⟩)) h₂

/-! ## Choices that the next unit decides -/

/-- Of a string that continues with `F`, the expression matches one beginning at most, in one way. -/
def Sharp (r : RegExp) (F : JsString → Prop) : Prop :=
  ∀ (m m' t t' : JsString) (caps caps' : Captures), m ++ t = m' ++ t' → Matches r m caps → Matches r m' caps' →
    F t → F t' → m = m' ∧ caps = caps'

/-- The string does not start with a unit of the class. -/
def Stops (c : UInt16 → Bool) (s : JsString) : Prop := ∀ u ∈ s.head?, c u = false

/-- A match of the expression, continued with `F`, does not start with a unit of the class. -/
def Opens (r : RegExp) (F : JsString → Prop) (c : UInt16 → Bool) : Prop :=
  ∀ (m : JsString) (caps : Captures) (t : JsString), Matches r m caps → F t → Stops c (m ++ t)

/-- A match of the expression starts with a unit of the class. -/
def Starts (r : RegExp) (c : UInt16 → Bool) : Prop := ∀ m caps, Matches r m caps → ∃ u, m.head? = some u ∧ c u = true

variable {r r' : RegExp} {F G : JsString → Prop} {c d : UInt16 → Bool}

theorem Stops.mono {s : JsString} (h : Stops c s) (hd : ∀ u, d u = true → c u = true) : Stops d s := by
  intro u hu
  by_contra hne
  have hc := h u hu
  rw [hd u (Bool.eq_true_of_not_eq_false hne)] at hc
  cases hc

theorem Starts.lit {text : JsString} (h : text.head?.any c = true) : Starts (lit text) c := by
  rintro _ _ ⟨⟩
  obtain ⟨u, hu, hcu⟩ := Option.any_eq_true .. |>.mp h
  exact ⟨u, hu, hcu⟩

theorem Starts.reps {lo : Nat} {hi : Option Nat} (h : 1 ≤ lo) : Starts (reps c lo hi) c := by
  intro m caps hm
  cases hm with
  | reps least _ all =>
      cases m with
      | nil => exact absurd (h.trans least) (Nat.not_succ_le_zero 0)
      | cons u m => exact ⟨u, rfl, all u (List.mem_cons_self ..)⟩

theorem Starts.seq (h : Starts r c) : Starts (seq r r') c := by
  intro m caps hm
  obtain ⟨m₁, m₂, caps₁, _, h₁, _, rfl, _⟩ := matches_seq.mp hm
  obtain ⟨u, hu, hcu⟩ := h m₁ caps₁ h₁
  exact ⟨u, List.mem_head?_append_of_mem_head? hu, hcu⟩

theorem Starts.group (h : Starts r c) : Starts (group r) c := by
  intro m caps hm
  cases hm with
  | group hm => exact h m _ hm

theorem Sharp.mono (h : Sharp r G) (hF : ∀ t, F t → G t) : Sharp r F := by
  intro m m' t t' caps caps' heq hm hm' ht ht'
  exact h m m' t t' caps caps' heq hm hm' (hF t ht) (hF t' ht')

theorem Sharp.lit (text : JsString) (F : JsString → Prop) : Sharp (lit text) F := by
  intro m m' t t' caps caps' _ hm hm' _ _
  cases hm
  cases hm'
  exact ⟨rfl, rfl⟩

theorem Sharp.times (n : Nat) (c : UInt16 → Bool) (F : JsString → Prop) : Sharp (times n c) F := by
  intro m m' t t' caps caps' heq hm hm' _ _
  cases hm with
  | reps least most _ =>
      cases hm' with
      | reps least' most' _ =>
          have hlen : m.length = m'.length := (Nat.le_antisymm (most n rfl) least).trans (Nat.le_antisymm (most' n rfl) least').symm
          exact ⟨(List.append_inj heq hlen).1, rfl⟩

theorem takeWhile_append_stop {m t : JsString} (hm : ∀ u ∈ m, c u = true) (ht : Stops c t) :
    (m ++ t).takeWhile c = m := by
  rw [List.takeWhile_append_of_pos hm]
  cases t with
  | nil => exact List.append_nil m
  | cons u t => rw [List.takeWhile_cons_of_neg (by rw [ht u rfl]; exact Bool.false_ne_true), List.append_nil]

theorem Sharp.reps (lo : Nat) (hi : Option Nat) : Sharp (reps c lo hi) (Stops c) := by
  intro m m' t t' caps caps' heq hm hm' ht ht'
  cases hm with
  | reps _ _ all =>
      cases hm' with
      | reps _ _ all' => exact ⟨by rw [← takeWhile_append_stop all ht, heq, takeWhile_append_stop all' ht'], rfl⟩

theorem Sharp.seq (h : Sharp r G) (h' : Sharp r' F)
    (hG : ∀ m caps t, Matches r' m caps → F t → G (m ++ t)) : Sharp (seq r r') F := by
  intro m m' t t' caps caps' heq hm hm' ht ht'
  cases hm with
  | seq h₁ h₂ =>
      cases hm' with
      | seq h₁' h₂' =>
          rw [List.append_assoc, List.append_assoc] at heq
          obtain ⟨rfl, rfl⟩ := h _ _ _ _ _ _ heq h₁ h₁' (hG _ _ _ h₂ ht) (hG _ _ _ h₂' ht')
          obtain ⟨rfl, rfl⟩ := h' _ _ _ _ _ _ (List.append_cancel_left heq) h₂ h₂' ht ht'
          exact ⟨rfl, rfl⟩

theorem Sharp.seq_lit (text : JsString) (h : Sharp r F) : Sharp (.seq (.lit text) r) F :=
  Sharp.seq (.lit text fun _ => True) h fun _ _ _ _ _ => trivial

theorem Sharp.seq_times (n : Nat) (c : UInt16 → Bool) (h : Sharp r F) : Sharp (.seq (.times n c) r) F :=
  Sharp.seq (.times n c fun _ => True) h fun _ _ _ _ _ => trivial

theorem Sharp.seq_reps {lo : Nat} {hi : Option Nat} (h : Sharp r F) (hstop : Opens r F c) :
    Sharp (.seq (.reps c lo hi) r) F :=
  Sharp.seq (.reps lo hi) h hstop

theorem Sharp.group (h : Sharp r F) : Sharp (group r) F := by
  intro m m' t t' caps caps' heq hm hm' ht ht'
  cases hm with
  | group hm =>
      cases hm' with
      | group hm' =>
          obtain ⟨rfl, rfl⟩ := h _ _ _ _ _ _ heq hm hm' ht ht'
          exact ⟨rfl, rfl⟩

/-- The first unit decides between two alternatives: the left one starts with a unit of the class, the right one, with
    what follows, does not. -/
theorem Sharp.alt (h : Sharp r F) (h' : Sharp r' F) (hstart : Starts r c) (hstop : Opens r' F c) :
    Sharp (alt r r') F := by
  have apart : ∀ {m m' t t' : JsString} {caps caps' : Captures}, m ++ t = m' ++ t' → Matches r m caps →
      Matches r' m' caps' → F t' → False := by
    intro m m' t t' caps caps' heq hm hm' ht'
    obtain ⟨u, hu, hcu⟩ := hstart m caps hm
    have hfalse := hstop m' caps' t' hm' ht' u (heq ▸ List.mem_head?_append_of_mem_head? hu)
    rw [hcu] at hfalse
    cases hfalse
  intro m m' t t' caps caps' heq hm hm' ht ht'
  cases hm with
  | left hm =>
      cases hm' with
      | left hm' =>
          obtain ⟨rfl, rfl⟩ := h _ _ _ _ _ _ heq hm hm' ht ht'
          exact ⟨rfl, rfl⟩
      | right hm' => exact (apart heq hm hm' ht').elim
  | right hm =>
      cases hm' with
      | left hm' => exact (apart heq.symm hm' hm ht).elim
      | right hm' =>
          obtain ⟨rfl, rfl⟩ := h' _ _ _ _ _ _ heq hm hm' ht ht'
          exact ⟨rfl, rfl⟩

theorem disjoint_symm (h : ∀ u, d u = true → c u = false) (u : UInt16) (hc : c u = true) : d u = false := by
  by_contra hne
  have hcu := h u (Bool.eq_true_of_not_eq_false hne)
  rw [hc] at hcu
  cases hcu

/-- A match that starts with a unit of one class does not open with a unit of another. -/
theorem Opens.of_starts (h : Starts r d) (hdisjoint : ∀ u, d u = true → c u = false) : Opens r F c := by
  intro m caps t hm _ v hv
  obtain ⟨u, hu, hdu⟩ := h m caps hm
  obtain rfl := Option.some.inj ((List.mem_head?_append_of_mem_head? (t := t) hu).symm.trans hv)
  exact hdisjoint u hdu

theorem Opens.lit {text : JsString} (h : (text.head?.any fun u => !c u) = true) : Opens (lit text) F c :=
  .of_starts (Starts.lit h) fun _ hu => by rwa [Bool.not_eq_true'] at hu

theorem Opens.empty (h : ∀ t, F t → Stops c t) : Opens (.lit []) F c := by
  intro m caps t hm ht
  cases hm
  exact h t ht

theorem Opens.reps {lo : Nat} {hi : Option Nat} (h : ∀ u, d u = true → c u = false) (ht : ∀ t, F t → Stops c t) :
    Opens (reps d lo hi) F c := by
  intro m caps t hm hF v hv
  cases hm with
  | reps _ _ all =>
      cases m with
      | nil => exact ht t hF v hv
      | cons u m =>
          obtain rfl := Option.some.inj hv
          exact h u (all u (List.mem_cons_self ..))

theorem Opens.seq (h : Opens r (Stops c) c) (h' : Opens r' F c) : Opens (seq r r') F c := by
  intro m caps t hm ht
  cases hm with
  | seq h₁ h₂ =>
      rw [List.append_assoc]
      exact h _ _ _ h₁ (h' _ _ _ h₂ ht)

/-- The second expression does not matter where the first one has a unit. -/
theorem Opens.first (h : Opens r (fun _ => True) c) : Opens (.seq r r') F c := by
  intro m caps t hm ht
  cases hm with
  | seq h₁ h₂ =>
      rw [List.append_assoc]
      exact h _ _ _ h₁ trivial

theorem Opens.group (h : Opens r F c) : Opens (group r) F c := by
  intro m caps t hm ht
  cases hm with
  | group hm => exact h _ _ _ hm ht

theorem Opens.alt (h : Opens r F c) (h' : Opens r' F c) : Opens (alt r r') F c := by
  intro m caps t hm ht
  cases hm with
  | left hm => exact h _ _ _ hm ht
  | right hm => exact h' _ _ _ hm ht

/-- **The captures of a sharp expression** that matches a whole string. -/
theorem exec_eq_some_iff {s : JsString} {caps : Captures} (h : Sharp r fun t => t = []) :
    r.exec s = some caps ↔ Matches r s caps := by
  constructor
  · intro hexec
    obtain ⟨⟨caps', t⟩, hfind, rfl⟩ := Option.map_eq_some_iff.mp hexec
    have hend : t.isEmpty = true := List.find?_some (p := fun x : Captures × JsString => x.2.isEmpty) hfind
    obtain rfl := List.isEmpty_iff.mp hend
    obtain ⟨m, rfl, hm⟩ := mem_run.mp (List.mem_of_find?_eq_some hfind)
    rw [List.append_nil]
    exact hm
  · intro hm
    have hmem : (caps, []) ∈ r.run s := mem_run.mpr ⟨s, (List.append_nil s).symm, hm⟩
    obtain ⟨⟨caps', t⟩, hfind⟩ := Option.isSome_iff_exists.mp
      (List.find?_isSome.mpr ⟨(caps, []), hmem, rfl⟩ : ((r.run s).find? fun x => x.2.isEmpty).isSome = true)
    have hend : t.isEmpty = true := List.find?_some (p := fun x : Captures × JsString => x.2.isEmpty) hfind
    obtain rfl := List.isEmpty_iff.mp hend
    obtain ⟨m, rfl, hm'⟩ := mem_run.mp (List.mem_of_find?_eq_some hfind)
    obtain ⟨_, rfl⟩ := h _ _ _ _ _ _ (by rw [List.append_nil]) hm hm' rfl rfl
    rw [exec, hfind]
    rfl

end RegExp
end Js
end VpnPi
