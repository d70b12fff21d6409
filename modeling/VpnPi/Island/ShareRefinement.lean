import VpnPi.Island.Share

/-!
# `Island.ShareRefinement` — the two shares answer alike

`MemoryFileShare` keeps a running total and a counter, `SqliteFileShare` a table. `MemoryFileShare.Inv` says that
the total is the sum of the sizes and the counter is above every id; `Simulates` that the table holds the rows of
the map, as their columns carry them. Both are kept by every call, whatever it throws, so the replies agree exactly
where the text they show survives the columns (`shares_agree_iff`).
-/

namespace VpnPi
namespace Island

open Js Async

/-! ## Ids -/

theorem Number.ofInt_natCast_inj {m n : Nat} (h : Number.ofInt m = Number.ofInt n) : m = n := by
  have htext : intText m = intText n := (Number.finite.inj h).1
  rw [intText, intText, if_neg (by omega), if_neg (by omega), Int.natAbs_natCast, Int.natAbs_natCast] at htext
  rw [← digitsValue_natText m, htext, digitsValue_natText]

/-! ## What the columns do to a row -/

variable (text : TextChannel)

/-- What `list` reads back of a file. -/
def SharedFile.stored (f : SharedFile) : SharedFile :=
  ⟨f.id, text.carry f.name, f.size, text.carry f.node, text.carry f.modified⟩

/-- The row that is in the table for a file. -/
def StoredFile.stored (f : StoredFile) : StoredFile :=
  ⟨f.toSharedFile.stored text, f.contentType.map text.carry, f.content⟩

/-- What `get` reads back of a file. -/
def FileContent.stored (c : FileContent) : FileContent :=
  ⟨text.carry c.name, c.contentType.map text.carry, c.content⟩

variable {text}

theorem SharedFile.stored_eq_self_iff {f : SharedFile} :
    f.stored text = f ↔ WellFormed f.name ∧ WellFormed f.node ∧ WellFormed f.modified := by
  rw [← text.carry_eq_self_iff, ← text.carry_eq_self_iff, ← text.carry_eq_self_iff]
  constructor
  · intro h
    exact ⟨congrArg SharedFile.name h, congrArg SharedFile.node h, congrArg SharedFile.modified h⟩
  · rintro ⟨hname, hnode, hmodified⟩
    rw [stored, hname, hnode, hmodified]

theorem FileContent.stored_eq_self_iff {c : FileContent} :
    c.stored text = c ↔ WellFormed c.name ∧ ∀ t ∈ c.contentType, WellFormed t := by
  have htype : c.contentType.map text.carry = c.contentType ↔ ∀ t ∈ c.contentType, WellFormed t := by
    cases c.contentType with
    | none => simp
    | some t => simp [text.carry_eq_self_iff]
  rw [← text.carry_eq_self_iff, ← htype]
  constructor
  · intro h
    exact ⟨congrArg FileContent.name h, congrArg FileContent.contentType h⟩
  · rintro ⟨hname, htype⟩
    rw [stored, hname, htype]

@[simp] theorem sizeSum_stored (rows : List StoredFile) : sizeSum (rows.map (StoredFile.stored text)) = sizeSum rows := by
  rw [sizeSum, List.map_map]
  rfl

@[simp] theorem sizeSum_append (rows rows' : List StoredFile) :
    sizeSum (rows ++ rows') = sizeSum rows + sizeSum rows' := by
  rw [sizeSum, List.map_append, List.sum_append]
  rfl

theorem newestFirst_stored (files : List SharedFile) :
    newestFirst (files.map (SharedFile.stored text)) = (newestFirst files).map (SharedFile.stored text) := by
  refine (List.map_insertionSort _ _ _ files ?_).symm
  exact fun _ _ _ _ => Iff.rfl

theorem map_eq_self_iff {α : Type} {f : α → α} {xs : List α} : xs.map f = xs ↔ ∀ x ∈ xs, f x = x := by
  conv_lhs => rw [← List.map_id xs, List.map_map]
  exact List.map_inj_left

theorem mem_newestFirst {files : List SharedFile} {f : SharedFile} : f ∈ newestFirst files ↔ f ∈ files :=
  List.mem_insertionSort _

/-- **Newest first**: each id is below the one before it. -/
theorem newestFirst_pairwise {files : List SharedFile} (h : (files.map SharedFile.id).Nodup) :
    ((newestFirst files).map SharedFile.id).Pairwise (· > ·) := by
  have : Std.Total fun a b : SharedFile => b.id ≤ a.id := ⟨fun a b => Nat.le_total b.id a.id⟩
  have : IsTrans SharedFile fun a b => b.id ≤ a.id := ⟨fun _ _ _ hab hbc => Nat.le_trans hbc hab⟩
  have hsorted := List.pairwise_insertionSort (fun a b : SharedFile => b.id ≤ a.id) files
  have hnodup : ((newestFirst files).map SharedFile.id).Nodup :=
    ((List.perm_insertionSort _ files).map SharedFile.id).nodup_iff.mpr h
  rw [List.pairwise_map]
  exact hsorted.imp₂ (fun _ _ hle hne => Nat.lt_of_le_of_ne hle (Ne.symm hne)) (List.pairwise_map.mp hnodup)

/-! ## The map and the list of its rows -/

/-- The entry of a row. -/
def rowEntry (f : StoredFile) : Number × StoredFile := (.ofInt f.id, f)

theorem lookup_rowEntry (rows : List StoredFile) (id : Number) :
    (rows.map rowEntry).lookup id = rows.find? (SqliteFileShare.hasId id) := by
  induction rows with
  | nil => rfl
  | cons r rows ih =>
      rw [List.map_cons, OrdMap.lookup_cons_if, ih, List.find?_cons]
      by_cases h : id = (rowEntry r).1
      · have hid : SqliteFileShare.hasId id r = true := decide_eq_true h.symm
        rw [if_pos h, hid]
        rfl
      · have hid : SqliteFileShare.hasId id r = false := decide_eq_false (Ne.symm h)
        rw [if_neg h, hid]

theorem rowEntry_ne (id : Number) (r : StoredFile) :
    decide ((rowEntry r).1 ≠ id) = !SqliteFileShare.hasId id r := decide_not

theorem find_stored (id : Number) (rows : List StoredFile) :
    (rows.map (StoredFile.stored text)).find? (SqliteFileShare.hasId id)
      = (rows.find? (SqliteFileShare.hasId id)).map (StoredFile.stored text) := List.find?_map

namespace MemoryFileShare

/-- What holds of the in-memory share between calls. -/
structure Inv (s : MemoryFileShare) : Prop where
  keyed    : s.rows.entries = s.rows.values.map rowEntry
  below    : ∀ r ∈ s.rows.values, r.id < s.nextId
  total_eq : s.total = sizeSum s.rows.values
  bounded  : s.total ≤ s.maxTotalBytes

theorem inv_new (quota : Nat) : (new quota).Inv :=
  ⟨rfl, fun _ h => absurd h List.not_mem_nil, rfl, Int.natCast_nonneg quota⟩

variable {s : MemoryFileShare}

theorem Inv.get_eq (h : s.Inv) (id : Number) : s.rows.get id = s.rows.values.find? (SqliteFileShare.hasId id) := by
  rw [OrdMap.get, h.keyed, lookup_rowEntry]

/-- No row has the next id. -/
theorem Inv.fresh (h : s.Inv) : Number.ofInt s.nextId ∉ s.rows.entries.map Prod.fst := by
  intro hmem
  rw [h.keyed, List.map_map] at hmem
  obtain ⟨r, hr, heq⟩ := List.mem_map.mp hmem
  have hid : r.id = s.nextId := Number.ofInt_natCast_inj heq
  exact absurd (h.below r hr) (hid ▸ Nat.lt_irrefl _)

theorem Inv.ids_nodup (h : s.Inv) : (s.rows.values.map fun r => r.id).Nodup := by
  have hnd := s.rows.nodup
  rw [h.keyed, List.map_map] at hnd
  exact .of_map (fun n : Nat => Number.ofInt n) (by rwa [List.map_map])

theorem Inv.values_set (h : s.Inv) (r : StoredFile) :
    (s.rows.set (.ofInt s.nextId) r).values = s.rows.values ++ [r] := by
  show (OrdMap.setEntry _ _ _).map Prod.snd = _
  rw [OrdMap.setEntry_of_not_mem h.fresh, List.map_append]
  rfl

theorem Inv.values_delete (h : s.Inv) (id : Number) :
    (s.rows.delete id).values = s.rows.values.filter fun r => !SqliteFileShare.hasId id r := by
  show (s.rows.entries.filter _).map Prod.snd = _
  rw [h.keyed, List.filter_map, List.map_map]
  exact (List.map_id _).trans (List.filter_congr fun r _ => rowEntry_ne id r)

/-- The sizes of the rows without one of them. -/
theorem sizeSum_filter {rows : List StoredFile} {id : Number} {r : StoredFile}
    (hnd : (rows.map fun r => r.id).Nodup) (h : rows.find? (SqliteFileShare.hasId id) = some r) :
    sizeSum rows = sizeSum (rows.filter fun r => !SqliteFileShare.hasId id r) + r.size := by
  induction rows with
  | nil => cases h
  | cons a rows ih =>
      obtain ⟨ha, hnd⟩ := List.nodup_cons.mp hnd
      rw [List.find?_cons] at h
      cases hid : SqliteFileShare.hasId id a with
      | true =>
          rw [hid] at h
          obtain rfl := Option.some.inj h
          -- no other row has the id of the first
          have hrest : (rows.filter fun r => !SqliteFileShare.hasId id r) = rows := by
            refine List.filter_eq_self.mpr fun r hr => ?_
            rw [Bool.not_eq_true']
            refine decide_eq_false fun heq => ha ?_
            have hra : r.id = a.id := Number.ofInt_natCast_inj (heq.trans (of_decide_eq_true hid).symm)
            exact List.mem_map.mpr ⟨r, hr, hra⟩
          rw [List.filter_cons_of_neg (by simp [hid]), hrest]
          exact Nat.add_comm _ _
      | false =>
          rw [hid] at h
          rw [List.filter_cons_of_pos (by simp [hid])]
          have hsum : ∀ rs : List StoredFile, sizeSum (a :: rs) = a.size + sizeSum rs := fun _ => rfl
          rw [hsum, hsum, ih hnd h, Nat.add_assoc]

/-- **The running total is the sum**, after every call. -/
theorem Inv.call (h : s.Inv) (c : ShareCall) : (s.call c).2.Inv := by
  cases c with
  | list => exact h
  | add name content node contentType modified =>
      show (s.add name content node contentType modified).2.Inv
      unfold add
      split
      · exact h
      · -- the id is new, so the row is appended
        next hquota =>
          refine ⟨?_, ?_, ?_, ?_⟩
          · show OrdMap.setEntry _ _ _ = ((s.rows.set _ _).values).map rowEntry
            rw [h.values_set, OrdMap.setEntry_of_not_mem h.fresh, List.map_append, ← h.keyed]
            rfl
          · intro r hr
            rw [h.values_set] at hr
            rcases List.mem_append.mp hr with hr | hr
            · exact Nat.lt_succ_of_lt (h.below r hr)
            · obtain rfl := List.mem_singleton.mp hr
              exact Nat.lt_succ_self _
          · show s.total + _ = (sizeSum (s.rows.set _ _).values : Int)
            rw [h.values_set, sizeSum_append, h.total_eq]
            exact (Int.natCast_add _ _).symm
          · exact Int.not_lt.mp hquota
  | get id =>
      show (s.get id).2.Inv
      unfold get
      split <;> exact h
  | remove id =>
      show (s.remove id).2.Inv
      unfold remove
      split
      · exact h
      · next r hr =>
          rw [h.get_eq] at hr
          have hsum := sizeSum_filter h.ids_nodup hr
          have htotal := h.total_eq
          have hbounded := h.bounded
          refine ⟨?_, ?_, ?_, ?_⟩
          · show s.rows.entries.filter _ = ((s.rows.delete id).values).map rowEntry
            rw [h.values_delete, h.keyed, List.filter_map]
            exact congrArg _ (List.filter_congr fun r _ => rowEntry_ne id r)
          · intro r hr
            rw [h.values_delete] at hr
            exact h.below r (List.mem_filter.mp hr).1
          · show s.total - r.size = (sizeSum (s.rows.delete id).values : Int)
            rw [h.values_delete]
            omega
          · show s.total - r.size ≤ s.maxTotalBytes
            omega

end MemoryFileShare

/-! ## The simulation -/

/-- The table holds the rows of the map. -/
structure Simulates (text : TextChannel) (m : MemoryFileShare) (q : SqliteFileShare) : Prop where
  rows  : q.rows = m.rows.values.map (StoredFile.stored text)
  next  : m.nextId = q.sequence + 1
  quota : m.maxTotalBytes = q.maxTotalBytes

variable {m : MemoryFileShare} {q : SqliteFileShare}

theorem Simulates.new (rootLabel bind : JsString) (quota : Nat) :
    Simulates text (.new quota) (.new rootLabel bind quota) := ⟨rfl, rfl, rfl⟩

/-- Both shares refuse the same contents. -/
theorem Simulates.full_iff (h : Simulates text m q) (hm : m.Inv) (content : Bytes) :
    (m.maxTotalBytes : Int) < m.total + content.length ↔ q.maxTotalBytes < sizeSum q.rows + content.length := by
  rw [h.rows, sizeSum_stored, ← h.quota, hm.total_eq]
  omega

theorem Simulates.find (h : Simulates text m q) (hm : m.Inv) (id : Number) :
    q.rows.find? (SqliteFileShare.hasId id) = (m.rows.get id).map (StoredFile.stored text) := by
  rw [h.rows, find_stored, hm.get_eq]

/-- Nothing is deleted exactly when nothing is found. -/
theorem changes_eq_zero_iff {rows : List StoredFile} {id : Number} :
    (rows.filter (SqliteFileShare.hasId id)).length = 0 ↔ rows.find? (SqliteFileShare.hasId id) = none := by
  rw [List.length_eq_zero_iff, List.filter_eq_nil_iff, List.find?_eq_none]

/-- **Every call keeps the simulation.** -/
theorem Simulates.call (h : Simulates text m q) (hm : m.Inv) (c : ShareCall) :
    Simulates text (m.call c).2 (q.call text c).2 := by
  cases c with
  | list => exact h
  | add name content node contentType modified =>
      show Simulates text (m.add name content node contentType modified).2
        (q.add text name content node contentType modified).2
      unfold MemoryFileShare.add SqliteFileShare.add
      by_cases hfull : (m.maxTotalBytes : Int) < m.total + content.length
      · rw [if_pos hfull, if_pos ((h.full_iff hm content).mp hfull)]
        exact h
      · rw [if_neg hfull, if_neg fun hf => hfull ((h.full_iff hm content).mpr hf)]
        refine ⟨?_, congrArg (· + 1) h.next, h.quota⟩
        show q.rows ++ [_] = ((m.rows.set _ _).values).map _
        rw [hm.values_set, List.map_append, ← h.rows, h.next]
        rfl
  | get id =>
      show Simulates text (m.get id).2 (q.get id).2
      unfold MemoryFileShare.get SqliteFileShare.get
      split <;> split <;> exact h
  | remove id =>
      show Simulates text (m.remove id).2 (q.remove id).2
      have hfind := h.find hm id
      unfold MemoryFileShare.remove SqliteFileShare.remove
      cases hget : m.rows.get id with
      | none =>
          rw [hget] at hfind
          rw [if_pos (changes_eq_zero_iff.mpr hfind)]
          exact h
      | some r =>
          rw [hget] at hfind
          rw [if_neg fun hzero => by rw [changes_eq_zero_iff.mp hzero] at hfind; cases hfind]
          refine ⟨?_, h.next, h.quota⟩
          show q.rows.filter _ = ((m.rows.delete id).values).map _
          rw [hm.values_delete, h.rows, List.filter_map]
          rfl

/-- What a call shows of the files is well formed: `list` shows the names, adders and times of all of them, `get`
    the name and content type of one. -/
def Legible (s : MemoryFileShare) : ShareCall → Prop
  | .list => ∀ r ∈ s.rows.values, WellFormed r.name ∧ WellFormed r.node ∧ WellFormed r.modified
  | .get id => ∀ r, s.rows.get id = some r → WellFormed r.name ∧ ∀ t ∈ r.contentType, WellFormed t
  | .add .. | .remove _ => True

/-- **The two replies to a call** are the same exactly when the text it shows survives the columns. -/
theorem Simulates.reply_eq_iff (h : Simulates text m q) (hm : m.Inv) (c : ShareCall) :
    (m.call c).1 = (q.call text c).1 ↔ Legible m c := by
  cases c with
  | list =>
      show Except.ok (ShareResult.files (newestFirst _)) = Except.ok (ShareResult.files (newestFirst _)) ↔ _
      have hmap : q.rows.map StoredFile.toSharedFile
          = (m.rows.values.map StoredFile.toSharedFile).map (SharedFile.stored text) := by
        rw [h.rows, List.map_map, List.map_map]
        rfl
      -- both sort the same rows, so it is a question of each row's texts
      rw [Except.ok.injEq, ShareResult.files.injEq, hmap, newestFirst_stored, eq_comm, map_eq_self_iff]
      constructor
      · intro hall r hr
        exact SharedFile.stored_eq_self_iff.mp (hall _ (mem_newestFirst.mpr (List.mem_map_of_mem hr)))
      · intro hall f hf
        obtain ⟨r, hr, rfl⟩ := List.mem_map.mp (mem_newestFirst.mp hf)
        exact SharedFile.stored_eq_self_iff.mpr (hall r hr)
  | add name content node contentType modified =>
      refine iff_of_true ?_ trivial
      show (m.add name content node contentType modified).1.map _
        = (q.add text name content node contentType modified).1.map _
      unfold MemoryFileShare.add SqliteFileShare.add
      by_cases hfull : (m.maxTotalBytes : Int) < m.total + content.length
      · rw [if_pos hfull, if_pos ((h.full_iff hm content).mp hfull)]
      · rw [if_neg hfull, if_neg fun hf => hfull ((h.full_iff hm content).mpr hf), h.next]
  | get id =>
      show (m.get id).1.map _ = (q.get id).1.map _ ↔ _
      have hfind := h.find hm id
      unfold MemoryFileShare.get SqliteFileShare.get Legible
      cases hget : m.rows.get id with
      | none =>
          rw [hget] at hfind
          rw [hfind]
          refine iff_of_true rfl fun r hr => ?_
          rw [hget] at hr
          cases hr
      | some r =>
          rw [hget] at hfind
          rw [hfind]
          have hiff : FileContent.stored text ⟨r.name, r.contentType, r.content⟩ = ⟨r.name, r.contentType, r.content⟩ ↔
              WellFormed r.name ∧ ∀ t ∈ r.contentType, WellFormed t := FileContent.stored_eq_self_iff
          constructor
          · intro heq r' hr'
            obtain rfl := Option.some.inj (hget.symm.trans hr')
            exact hiff.mp (ShareResult.content.inj (Except.ok.inj heq)).symm
          · intro hall
            exact congrArg (fun c => Except.ok (ShareResult.content c)) (hiff.mpr (hall r hget)).symm
  | remove id =>
      refine iff_of_true ?_ trivial
      show (m.remove id).1.map _ = (q.remove id).1.map _
      have hfind := h.find hm id
      unfold MemoryFileShare.remove SqliteFileShare.remove
      cases hget : m.rows.get id with
      | none =>
          rw [hget] at hfind
          rw [if_pos (changes_eq_zero_iff.mpr hfind)]
      | some r =>
          rw [hget] at hfind
          rw [if_neg fun hzero => by rw [changes_eq_zero_iff.mp hzero] at hfind; cases hfind]

/-! ## Whole runs -/

/-- Both shares empty, with the same quota, asked the same calls: they reply alike, a call that throws changes
    neither, every list is newest first, and neither ever stores more than the quota. -/
structure Interchangeable (text : TextChannel) (rootLabel bind : JsString) (quota : Nat) (calls : List ShareCall) :
    Prop where
  sameReplies  : replies MemoryFileShare.call (.new quota) calls
    = replies (SqliteFileShare.call text) (.new rootLabel bind quota) calls
  throwKeepsMemory : ∀ pre c post e, calls = pre ++ c :: post →
    ((after MemoryFileShare.call (.new quota) pre).call c).1 = .error e →
      ((after MemoryFileShare.call (.new quota) pre).call c).2 = after MemoryFileShare.call (.new quota) pre
  throwKeepsSqlite : ∀ pre c post e, calls = pre ++ c :: post →
    ((after (SqliteFileShare.call text) (.new rootLabel bind quota) pre).call text c).1 = .error e →
      ((after (SqliteFileShare.call text) (.new rootLabel bind quota) pre).call text c).2
        = after (SqliteFileShare.call text) (.new rootLabel bind quota) pre
  newestFirst  : ∀ pre post, calls = pre ++ post →
    ((after MemoryFileShare.call (.new quota) pre).list.files.map SharedFile.id).Pairwise (· > ·) ∧
      ((after (SqliteFileShare.call text) (.new rootLabel bind quota) pre).list.files.map SharedFile.id).Pairwise
        (· > ·)
  withinQuota  : ∀ pre post, calls = pre ++ post →
    sizeSum (after MemoryFileShare.call (.new quota) pre).rows.values ≤ quota ∧
      sizeSum (after (SqliteFileShare.call text) (.new rootLabel bind quota) pre).rows ≤ quota

/-- Only the throwing branch of a method leads to an error, and it hands back the state. -/
theorem MemoryFileShare.throw_keeps {s : MemoryFileShare} {c : ShareCall} {e : ShareError}
    (h : (s.call c).1 = .error e) : (s.call c).2 = s := by
  cases c with
  | list => rfl
  | add name content node contentType modified =>
      change (s.add name content node contentType modified).1.map _ = _ at h
      show (s.add name content node contentType modified).2 = s
      unfold add at h ⊢
      split at h
      · next hfull => rw [if_pos hfull]
      · cases h
  | get id =>
      show (s.get id).2 = s
      unfold get
      split <;> rfl
  | remove id =>
      change (s.remove id).1.map _ = _ at h
      show (s.remove id).2 = s
      unfold remove at h ⊢
      split at h
      · rfl
      · cases h

theorem SqliteFileShare.throw_keeps {s : SqliteFileShare} {c : ShareCall} {e : ShareError}
    (h : (s.call text c).1 = .error e) : (s.call text c).2 = s := by
  cases c with
  | list => rfl
  | add name content node contentType modified =>
      change (s.add text name content node contentType modified).1.map _ = _ at h
      show (s.add text name content node contentType modified).2 = s
      unfold add at h ⊢
      by_cases hfull : s.maxTotalBytes < sizeSum s.rows + content.length
      · rw [if_pos hfull]
      · rw [if_neg hfull] at h
        cases h
  | get id =>
      show (s.get id).2 = s
      unfold get
      split <;> rfl
  | remove id =>
      change (s.remove id).1.map _ = _ at h
      show (s.remove id).2 = s
      unfold remove at h ⊢
      by_cases hzero : (s.rows.filter (hasId id)).length = 0
      · rw [if_pos hzero]
      · rw [if_neg hzero] at h
        cases h

theorem MemoryFileShare.call_quota (s : MemoryFileShare) (c : ShareCall) :
    (s.call c).2.maxTotalBytes = s.maxTotalBytes := by
  cases c with
  | list => rfl
  | add name content node contentType modified =>
      show (s.add name content node contentType modified).2.maxTotalBytes = _
      unfold add
      split <;> rfl
  | get id =>
      show (s.get id).2.maxTotalBytes = _
      unfold get
      split <;> rfl
  | remove id =>
      show (s.remove id).2.maxTotalBytes = _
      unfold remove
      split <;> rfl

section Runs

variable (text : TextChannel) (rootLabel bind : JsString) (quota : Nat) (calls : List ShareCall)

/-- The invariant and the simulation hold in every state of a run. -/
theorem after_simulates :
    (after MemoryFileShare.call (.new quota) calls).Inv ∧
      (after MemoryFileShare.call (.new quota) calls).maxTotalBytes = quota ∧
      Simulates text (after MemoryFileShare.call (.new quota) calls)
        (after (SqliteFileShare.call text) (.new rootLabel bind quota) calls) := by
  refine after_related (R := fun m q => m.Inv ∧ m.maxTotalBytes = quota ∧ Simulates text m q) ?_ ?_ calls
  · rintro m q c ⟨hinv, hquota, hsim⟩
    exact ⟨hinv.call c, (m.call_quota c).trans hquota, hsim.call hinv c⟩
  · exact ⟨MemoryFileShare.inv_new quota, rfl, .new rootLabel bind quota⟩

/-- **Memory and SQLite shares are interchangeable** exactly on the calls that show well-formed text: each `list`
    and `get` meets only files whose text has no lone surrogate. -/
theorem shares_agree_iff :
    Interchangeable text rootLabel bind quota calls ↔
      ∀ pre c post, calls = pre ++ c :: post → Legible (after MemoryFileShare.call (.new quota) pre) c := by
  have hreplies : replies MemoryFileShare.call (.new quota) calls
        = replies (SqliteFileShare.call text) (.new rootLabel bind quota) calls ↔
      ∀ pre c post, calls = pre ++ c :: post → Legible (after MemoryFileShare.call (.new quota) pre) c := by
    rw [replies_eq_iff]
    refine forall_congr' fun pre => forall_congr' fun c => forall_congr' fun post => forall_congr' fun _ => ?_
    obtain ⟨hinv, _, hsim⟩ := after_simulates text rootLabel bind quota pre
    exact hsim.reply_eq_iff hinv c
  refine ⟨fun h => hreplies.mp h.sameReplies, fun h => ⟨hreplies.mpr h, ?_, ?_, ?_, ?_⟩⟩
  · exact fun _ _ _ _ _ => MemoryFileShare.throw_keeps
  · exact fun _ _ _ _ _ => SqliteFileShare.throw_keeps
  · intro pre post _
    obtain ⟨hinv, _, hsim⟩ := after_simulates text rootLabel bind quota pre
    have hids := hinv.ids_nodup
    refine ⟨newestFirst_pairwise (by rwa [List.map_map]), newestFirst_pairwise ?_⟩
    rw [hsim.rows, List.map_map, List.map_map]
    exact hids
  · intro pre post _
    obtain ⟨hinv, hquota, hsim⟩ := after_simulates text rootLabel bind quota pre
    have hsum : sizeSum (after MemoryFileShare.call (.new quota) pre).rows.values ≤ quota := by
      have hbounded := hinv.bounded
      rw [hinv.total_eq, hquota] at hbounded
      exact Int.ofNat_le.mp hbounded
    refine ⟨hsum, ?_⟩
    rw [hsim.rows, sizeSum_stored]
    exact hsum

end Runs

namespace Symbolic

/-- 159 letters and a character of two units: the cut after 160 units leaves its first half. -/
def cutPairName : JsString := List.replicate 159 0x61 ++ [0xd83d, 0xde00] ++ js ".txt"

/-- The in-memory share returns the half, the database cannot hold it. -/
theorem cut_pair_differs : ¬Interchangeable replacing (js "vega:island.db") (js "wg0:8787") 100
    [.add cutPairName [7] (js "alice") none (js "1970-01-01T00:00:00.000Z"), .get (.ofInt 1)] := by
  intro h
  exact absurd h.sameReplies (by decide +kernel)

end Symbolic

end Island
end VpnPi
