import VpnPi.Island.LinkRoster
import VpnPi.Js.RegExp
import VpnPi.Js.Trim

/-!
# `Island.Fail2ban` — what an action message of fail2ban is (`core/sysinfo.ts`)

`f2bActionRe` is the expression of the source, `ActionMessage` the grammar it is meant to read: a text in the middle of a
longer message is no action message. The expression leaves no choice to backtracking (`f2bActionRe_sharp`), so that what it
captures is what the grammar says (`action_iff`).
-/

namespace VpnPi
namespace Island
namespace Fail2ban

open Js RegExp

/-! ## An action message -/

/-- `[\w-]`. -/
def isJailUnit (u : UInt16) : Bool :=
  isDigit u || (0x41 ≤ u && u ≤ 0x5a) || (0x61 ≤ u && u ≤ 0x7a) || u = 0x5f || u = 0x2d

/-- `\d{4}-\d{2}-\d{2}[ T]\d{2}:\d{2}:\d{2}(?:[.,]\d+)?\s+fail2ban\.actions\s*\[\d+\]:\s+NOTICE\s+`. -/
def stampRe : RegExp :=
  seqs [times 4 isDigit, lit (js "-"), times 2 isDigit, lit (js "-"), times 2 isDigit,
    times 1 fun u => u = 0x20 || u = 0x54, times 2 isDigit, lit (js ":"), times 2 isDigit, lit (js ":"), times 2 isDigit,
    opt (seqs [times 1 fun u => u = 0x2e || u = 0x2c, plus isDigit]), plus isSpace, lit (js "fail2ban.actions"),
    star isSpace, lit (js "["), plus isDigit, lit (js "]:"), plus isSpace, lit (js "NOTICE"), plus isSpace]

/-- `\d{1,3}`. -/
def octetRe : RegExp := reps isDigit 1 (some 3)

/-- `(?:\d{1,3}\.){3}\d{1,3}`. -/
def ipRe : RegExp := seqs [octetRe, lit (js "."), octetRe, lit (js "."), octetRe, lit (js "."), octetRe]

/-- `F2B_ACTION_RE`, between its anchors. -/
def f2bActionRe : RegExp :=
  seqs [opt stampRe, lit (js "["), group (plus isJailUnit), lit (js "]"), plus isSpace,
    opt (seq (group (lit (js "Restore"))) (plus isSpace)), group (alt (lit (js "Ban")) (lit (js "Unban"))),
    plus isSpace, group ipRe, star isSpace]

structure Action where
  jail     : JsString
  restored : Bool
  ban      : Bool
  ip       : JsString
  deriving DecidableEq

/-- The captures of a match, destructured. -/
def actionOf : Captures → Option Action
  | [some jail, restore, some action, some ip] => some ⟨jail, restore.isSome, action = js "Ban", ip⟩
  | _ => none

/-! ## The grammar of action messages -/

def digits (n : Nat) : Language UInt16 := unitsOf isDigit {n}

def number : Language UInt16 := unitsOf isDigit {n | 1 ≤ n}

def gap : Language UInt16 := unitsOf isSpace {n | 1 ≤ n}

def blank : Language UInt16 := unitsOf isSpace Set.univ

/-- `2024-01-31 12:00:00,123 fail2ban.actions [4711]: NOTICE `, what a captured log puts before the message. -/
def stamp : Language UInt16 :=
  [digits 4, {js "-"}, digits 2, {js "-"}, digits 2, unitsOf (fun u => u = 0x20 || u = 0x54) {1}, digits 2, {js ":"},
    digits 2, {js ":"}, digits 2, [unitsOf (fun u => u = 0x2e || u = 0x2c) {1}, number].prod + 1, gap,
    {js "fail2ban.actions"}, blank, {js "["}, number, {js "]:"}, gap, {js "NOTICE"}, gap].prod

def octet : Language UInt16 := unitsOf isDigit (Set.Icc 1 3)

def dottedQuad : Language UInt16 := [octet, {js "."}, octet, {js "."}, octet, {js "."}, octet].prod

/-- `[jail] Ban ip`, `[jail] Restore Ban ip` or `[jail] Unban ip` from end to end, after a stamp or without one. -/
inductive ActionMessage : JsString → Action → Prop
  | mk {before jail gap₁ restore gap₂ ip after : JsString} {restored ban : Bool} (hbefore : before ∈ stamp + 1)
      (hjail : jail ∈ unitsOf isJailUnit {n | 1 ≤ n}) (hgap₁ : gap₁ ∈ gap)
      (hrestore : restore ∈ if restored then {js "Restore"} * gap else 1) (hgap₂ : gap₂ ∈ gap) (hip : ip ∈ dottedQuad)
      (hafter : after ∈ blank) :
      ActionMessage [before, js "[", jail, js "]", gap₁, restore, if ban then js "Ban" else js "Unban", gap₂, ip,
        after].flatten ⟨jail, restored, ban, ip⟩

/-! ## The expression and the grammar -/

theorem stampRe_reads : Reads stampRe stamp := by
  refine .seqs (.cons (.times _ _) (.cons (.lit _) (.cons (.times _ _) (.cons (.lit _) (.cons (.times _ _) (.cons (.times _ _)
    (.cons (.times _ _) (.cons (.lit _) (.cons (.times _ _) (.cons (.lit _) (.cons (.times _ _) (.cons (.opt ?_ rfl)
    (.cons (.plus _) (.cons (.lit _) (.cons (.star _) (.cons (.lit _) (.cons (.plus _) (.cons (.lit _) (.cons (.plus _)
    (.cons (.lit _) (.cons (.plus _) .nil)))))))))))))))))))))
  exact .seqs (.cons (.times _ _) (.cons (.plus _) .nil))

theorem octetRe_reads : Reads octetRe octet := .upTo 3 isDigit

theorem ipRe_reads : Reads ipRe dottedQuad :=
  .seqs (.cons octetRe_reads (.cons (.lit _) (.cons octetRe_reads (.cons (.lit _) (.cons octetRe_reads (.cons (.lit _)
    (.cons octetRe_reads .nil)))))))

/-- The captures of a message. -/
def Action.captures (a : Action) : Captures :=
  [some a.jail, if a.restored then some (js "Restore") else none, some (if a.ban then js "Ban" else js "Unban"), some a.ip]

theorem actionOf_captures (a : Action) : actionOf a.captures = some a := by
  obtain ⟨jail, restored, ban, ip⟩ := a
  cases restored <;> cases ban <;> rfl

theorem restoreRe_iff {m : JsString} {caps : Captures} :
    Matches (opt (seq (group (lit (js "Restore"))) (plus isSpace))) m caps ↔ ∃ restored : Bool,
      (m ∈ if restored then {js "Restore"} * gap else (1 : Language UInt16)) ∧
        caps = [if restored then some (js "Restore") else none] := by
  have hgap : Reads (plus isSpace) gap := .plus isSpace
  constructor
  · intro h
    cases h with
    | left h =>
        obtain ⟨_, rfl, blanks, _, rfl, rfl, hblanks⟩ := (Reads.lit _).group_iff.mp h
        obtain ⟨hm, rfl⟩ := (hgap _ _).mp hblanks
        exact ⟨true, Language.append_mem_mul rfl hm, rfl⟩
    | right h =>
        cases h
        exact ⟨false, rfl, rfl⟩
  · rintro ⟨restored, hm, rfl⟩
    cases restored with
    | true =>
        obtain ⟨_, rfl, blanks, hblanks, rfl⟩ := Language.mem_mul.mp hm
        exact .left ((Reads.lit _).group_iff.mpr ⟨_, rfl, blanks, [], rfl, rfl, (hgap _ _).mpr ⟨hblanks, rfl⟩⟩)
    | false =>
        obtain rfl := (Language.mem_one m).mp hm
        exact .right (.lit [])

/-- **The expression matches the messages of the grammar.** -/
theorem matches_iff {m : JsString} {caps : Captures} :
    Matches f2bActionRe m caps ↔ ∃ a, ActionMessage m a ∧ caps = a.captures := by
  have hstamp : Reads (opt stampRe) (stamp + 1) := .opt stampRe_reads rfl
  have hgap : Reads (plus isSpace) gap := .plus isSpace
  have hword : Reads (plus isJailUnit) (unitsOf isJailUnit {n | 1 ≤ n}) := .plus isJailUnit
  have hblank : Reads (star isSpace) blank := .star isSpace
  have hverb : Reads (alt (lit (js "Ban")) (lit (js "Unban"))) ({js "Ban"} + {js "Unban"}) := .alt (.lit _) (.lit _) rfl rfl
  constructor
  · intro h
    -- the parts from left to right: stamp, jail, verb, address
    obtain ⟨before, hbefore, _, rfl, h₁⟩ := hstamp.seq_iff.mp h
    obtain ⟨_, rfl, _, rfl, h₂⟩ := (Reads.lit _).seq_iff.mp h₁
    obtain ⟨jail, hjail, _, _, rfl, rfl, h₃⟩ := hword.group_iff.mp h₂
    obtain ⟨_, rfl, _, rfl, h₄⟩ := (Reads.lit _).seq_iff.mp h₃
    obtain ⟨gap₁, hgap₁, _, rfl, h₅⟩ := hgap.seq_iff.mp h₄
    obtain ⟨restore, _, caps₁, _, hm, h₆, rfl, rfl⟩ := matches_seq.mp h₅
    obtain ⟨restored, hrestore, rfl⟩ := restoreRe_iff.mp hm
    obtain ⟨verb, hban, _, _, rfl, rfl, h₇⟩ := hverb.group_iff.mp h₆
    obtain ⟨gap₂, hgap₂, _, rfl, h₈⟩ := hgap.seq_iff.mp h₇
    obtain ⟨ip, hip, _, _, rfl, rfl, h₉⟩ := ipRe_reads.group_iff.mp h₈
    obtain ⟨after, hafter, _, rfl, ⟨⟩⟩ := hblank.seq_iff.mp h₉
    obtain ⟨ban, rfl⟩ : ∃ ban, verb = if ban = true then js "Ban" else js "Unban" := by
      rcases hban with rfl | rfl
      · exact ⟨true, rfl⟩
      · exact ⟨false, rfl⟩
    exact ⟨⟨jail, restored, ban, ip⟩, .mk hbefore hjail hgap₁ hrestore hgap₂ hip hafter, rfl⟩
  · rintro ⟨_, ⟨hbefore, hjail, hgap₁, hrestore, hgap₂, hip, hafter⟩, rfl⟩
    refine hstamp.seq_iff.mpr ⟨_, hbefore, _, rfl, ?_⟩
    refine (Reads.lit _).seq_iff.mpr ⟨_, rfl, _, rfl, ?_⟩
    refine hword.group_iff.mpr ⟨_, hjail, _, _, rfl, rfl, ?_⟩
    refine (Reads.lit _).seq_iff.mpr ⟨_, rfl, _, rfl, ?_⟩
    refine hgap.seq_iff.mpr ⟨_, hgap₁, _, rfl, ?_⟩
    refine matches_seq.mpr ⟨_, _, _, _, restoreRe_iff.mpr ⟨_, hrestore, rfl⟩, ?_, rfl, rfl⟩
    refine hverb.group_iff.mpr ⟨_, ?_, _, _, rfl, rfl, ?_⟩
    · split
      · exact .inl rfl
      · exact .inr rfl
    refine hgap.seq_iff.mpr ⟨_, hgap₂, _, rfl, ?_⟩
    refine ipRe_reads.group_iff.mpr ⟨_, hip, _, _, rfl, rfl, ?_⟩
    exact hblank.seq_iff.mpr ⟨_, hafter, _, rfl, .lit []⟩

/-! ## One match at most -/

theorem isSpace_digit : ∀ n, n < 10 → isSpace (UInt16.ofNat (0x30 + n)) = false := by decide

theorem isSpace_of_isDigit (u : UInt16) (h : isDigit u = true) : isSpace u = false := by
  simp only [isDigit, Bool.and_eq_true, decide_eq_true_eq, UInt16.le_iff_toNat_le] at h
  have hlow : 0x30 ≤ u.toNat := h.1
  have hhigh : u.toNat ≤ 0x39 := h.2
  have hdigit := isSpace_digit (u.toNat - 0x30) (by omega)
  rwa [Nat.add_sub_cancel' hlow, UInt16.ofNat_toNat] at hdigit

/-- `[.,]`. -/
theorem isSpace_of_point (u : UInt16) (h : (decide (u = 0x2e) || decide (u = 0x2c)) = true) : isSpace u = false := by
  rcases Bool.or_eq_true _ _ |>.mp h with h | h
  · rw [of_decide_eq_true h]
    decide
  · rw [of_decide_eq_true h]
    decide

theorem octet_dot_sharp {r : RegExp} {F : JsString → Prop} (h : Sharp r F) :
    Sharp (seq octetRe (seq (lit (js ".")) r)) F :=
  .seq_reps (.seq_lit _ h) (.first (.lit (by decide)))

theorem ipRe_sharp : Sharp ipRe (Stops isDigit) :=
  octet_dot_sharp (octet_dot_sharp (octet_dot_sharp (.seq_reps (.lit _ _) (.empty fun _ h => h))))

/-- What may not follow a stamp, for its end and for its absence to be visible. -/
def spaceOrDigit (u : UInt16) : Bool := isSpace u || isDigit u

def pointOrDigit (u : UInt16) : Bool := (u = 0x2e || u = 0x2c) || isDigit u

theorem fraction_sharp : Sharp (opt (seqs [times 1 fun u => u = 0x2e || u = 0x2c, plus isDigit])) (Stops pointOrDigit) := by
  have hdigits : Sharp (seqs [plus isDigit]) (Stops pointOrDigit) :=
    .seq_reps (.lit _ _) (.empty fun _ h => h.mono fun u hu => by rw [pointOrDigit, hu, Bool.or_true])
  refine .alt (.seq_times _ _ hdigits) (.lit _ _) (.seq (.reps le_rfl)) (.empty fun _ h => h.mono fun u hu => ?_)
  rw [pointOrDigit, hu, Bool.true_or]

/-- A gap, and a text that is not blank. -/
theorem gap_sharp {lo : Nat} {hi : Option Nat} {text : JsString} {r : RegExp} {F : JsString → Prop} (h : Sharp r F)
    (htext : (text.head?.any fun u => !isSpace u) = true) : Sharp (seq (reps isSpace lo hi) (seq (lit text) r)) F :=
  .seq_reps (.seq_lit _ h) (.first (.lit htext))

theorem isSpace_of_pointOrDigit (u : UInt16) (h : pointOrDigit u = true) : isSpace u = false := by
  rcases Bool.or_eq_true _ _ |>.mp h with h | h
  · exact isSpace_of_point u h
  · exact isSpace_of_isDigit u h

theorem stampRe_sharp : Sharp stampRe (Stops spaceOrDigit) := by
  have hend : Sharp (seqs [plus isSpace]) (Stops spaceOrDigit) :=
    .seq_reps (.lit _ _) (.empty fun _ h => h.mono fun u hu => by rw [spaceOrDigit, hu, Bool.true_or])
  have hpid : Sharp (seqs [plus isDigit, lit (js "]:"), plus isSpace, lit (js "NOTICE"), plus isSpace]) (Stops spaceOrDigit) :=
    .seq_reps (.seq_lit _ (gap_sharp hend (by decide))) (.first (.lit (by decide)))
  have hname : Sharp (seqs [plus isSpace, lit (js "fail2ban.actions"), star isSpace, lit (js "["), plus isDigit,
      lit (js "]:"), plus isSpace, lit (js "NOTICE"), plus isSpace]) (Stops spaceOrDigit) :=
    gap_sharp (gap_sharp hpid (by decide)) (by decide)
  refine .seq_times _ _ (.seq_lit _ (.seq_times _ _ (.seq_lit _ (.seq_times _ _ (.seq_times _ _ (.seq_times _ _ (.seq_lit _
    (.seq_times _ _ (.seq_lit _ (.seq_times _ _ (fraction_sharp.seq hname ?_)))))))))))
  exact Opens.first (.of_starts (.reps le_rfl) (disjoint_symm isSpace_of_pointOrDigit))

/-- A blank, or the first letter of `Restore`. -/
def spaceOrR (u : UInt16) : Bool := isSpace u || u = 0x52

theorem restoreRe_sharp : Sharp (opt (seq (group (lit (js "Restore"))) (plus isSpace))) (Stops spaceOrR) := by
  have hgap : Sharp (plus isSpace) (Stops spaceOrR) :=
    (Sharp.reps 1 none).mono fun _ h => h.mono fun u hu => by rw [spaceOrR, hu, Bool.true_or]
  have hword : Sharp (group (lit (js "Restore"))) fun _ => True := .group (.lit _ _)
  have hstart : Starts (group (lit (js "Restore"))) fun u => u = 0x52 := .group (.lit (by decide))
  refine .alt (.seq hword hgap fun _ _ _ _ _ => trivial) (.lit _ _) (.seq hstart) (.empty fun _ h => h.mono fun u hu => ?_)
  rw [spaceOrR, hu, Bool.or_true]

theorem verbRe_sharp (F : JsString → Prop) : Sharp (group (alt (lit (js "Ban")) (lit (js "Unban")))) F := by
  have hstart : Starts (lit (js "Ban")) fun u => u = 0x42 := .lit (by decide)
  exact .group (.alt (.lit _ _) (.lit _ _) hstart (.lit (by decide)))

theorem optStampRe_sharp : Sharp (opt stampRe) (Stops spaceOrDigit) := by
  refine .alt stampRe_sharp (.lit _ _) (.seq (.reps (by decide))) (.empty fun _ h => h.mono fun u hu => ?_)
  rw [spaceOrDigit, hu, Bool.or_true]

theorem verbRe_opens {r : RegExp} {F : JsString → Prop} {c : UInt16 → Bool} (h : (!c 0x42 && !c 0x55) = true) :
    Opens (seq (group (alt (lit (js "Ban")) (lit (js "Unban")))) r) F c := by
  obtain ⟨h1, h2⟩ := Bool.and_eq_true _ _ |>.mp h
  exact .first (.group (.alt (.lit h1) (.lit h2)))

/-- **The expression has one match at most.** -/
theorem f2bActionRe_sharp : Sharp f2bActionRe fun t => t = [] := by
  have hempty : ∀ c, Opens (lit []) (fun t => t = []) c := fun c => .empty fun t ht u hu => by
    rw [ht] at hu
    cases hu
  have hip : Sharp (seqs [group ipRe, star isSpace]) fun t => t = [] :=
    .seq (.group ipRe_sharp) (.seq_reps (.lit _ _) (hempty _))
      (Opens.seq (.reps (disjoint_symm isSpace_of_isDigit) fun _ h => h) (hempty _))
  have hverb : Sharp (seqs [group (alt (lit (js "Ban")) (lit (js "Unban"))), plus isSpace, group ipRe, star isSpace])
      fun t => t = [] := by
    refine .seq (verbRe_sharp fun _ => True) (.seq_reps hip ?_) fun _ _ _ _ _ => trivial
    exact .first (.group (.first (.of_starts (.reps le_rfl) isSpace_of_isDigit)))
  -- `Restore` is there exactly if the next letter is an `R`
  have hrestore : Sharp (seqs [plus isSpace, opt (seq (group (lit (js "Restore"))) (plus isSpace)),
      group (alt (lit (js "Ban")) (lit (js "Unban"))), plus isSpace, group ipRe, star isSpace]) fun t => t = [] := by
    refine .seq_reps (.seq restoreRe_sharp hverb (verbRe_opens (by decide))) (.seq ?_ (verbRe_opens (by decide)))
    exact .alt (.first (.group (.lit (by decide)))) (.empty fun _ h => h)
  have hjail : Sharp (group (plus isJailUnit)) (Stops isJailUnit) := .group (.reps 1 none)
  exact .seq optStampRe_sharp (.seq_lit _ (.seq hjail (.seq_lit _ hrestore) (Opens.first (.lit (by decide)))))
    (Opens.first (.lit (by decide)))

/-- **What a message says**: the captures of the expression are those of the grammar. -/
theorem action_iff {m : JsString} {a : Action} : (f2bActionRe.exec m >>= actionOf) = some a ↔ ActionMessage m a := by
  constructor
  · intro h
    obtain ⟨caps, hexec, haction⟩ := Option.bind_eq_some_iff.mp h
    obtain ⟨b, hb, rfl⟩ := matches_iff.mp ((exec_eq_some_iff f2bActionRe_sharp).mp hexec)
    rw [actionOf_captures] at haction
    exact Option.some.inj haction ▸ hb
  · intro h
    have hexec := (exec_eq_some_iff f2bActionRe_sharp).mpr (matches_iff.mpr ⟨a, h, rfl⟩)
    rw [hexec]
    exact actionOf_captures a

example : (f2bActionRe.exec (js "[sshd] Restore Ban 1.2.3.4") >>= actionOf) = some ⟨js "sshd", true, true, js "1.2.3.4"⟩ := by
  decide

example : f2bActionRe.exec (js "jail [sshd] Ban 1.2.3.4") = none := by decide

end Fail2ban
end Island
end VpnPi
