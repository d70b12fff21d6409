import VpnPi.Island.FileName
import VpnPi.Island.ShareRefinement

/-!
# `Island.RemoteShare` — a spoke's view of vega's share (`RemoteFileShare` of `core/share.ts`)

A spoke uploads to `POST /api/files` on vega and downloads from `GET /api/files/:id/download`; both are in `main.ts`.
HTTP delivers bodies and headers as they were sent. A form field carries a file name as scalar values
(`toWellFormed`), and stored names hold none of the characters that the form encoding escapes.

* `filenameFromDisposition_header` — what the spoke reads of the header is its quoted part;
* `remote_share_transparent_iff` — the uploads and downloads on which the spoke sees vega's share as it is.
-/

namespace VpnPi
namespace Island

open Js

/-! ## The interface, as vega serves it -/

/-- What the routes use of a `FileShare`. What `add` has taken in, `get` returns: the name reduced, and text as the
    share keeps it. Whether there is room depends on the contents alone. -/
structure FileShare (σ : Type) where
  add    : σ → JsString → Bytes → JsString → Option JsString → JsString → Except ShareError SharedFile × σ
  get    : σ → Number → Except ShareError FileContent × σ
  /-- What becomes of text that is stored. -/
  column : JsString → JsString
  column_text : ∀ s, WellFormed s → column s = s
  stored : ∀ {s name content node contentType modified f},
    (add s name content node contentType modified).1 = .ok f →
      (get (add s name content node contentType modified).2 (.ofInt f.id)).1
        = .ok ⟨column (sanitizeFileName name), contentType.map column, content⟩
  room : ∀ {s name content node contentType modified f} (name' node' contentType' modified'),
    (add s name content node contentType modified).1 = .ok f →
      ∃ f', (add s name' content node' contentType' modified').1 = .ok f'

/-- `ISLAND_SHARE=memory`. -/
def memoryShare : FileShare MemoryFileShare where
  add := MemoryFileShare.add
  get := MemoryFileShare.get
  column := id
  column_text _ _ := rfl
  stored := by
    intro s name content node contentType modified f h
    unfold MemoryFileShare.add at h ⊢
    split at h
    · cases h
    · next hroom =>
        obtain rfl := Except.ok.inj h
        rw [if_neg hroom, MemoryFileShare.get, OrdMap.get_set_self, Option.map_id]
        rfl
  room := by
    intro s name content node contentType modified f name' node' contentType' modified' h
    unfold MemoryFileShare.add at h ⊢
    split at h
    · cases h
    · next hroom =>
        rw [if_neg hroom]
        exact ⟨_, rfl⟩

/-- The table with what `AUTOINCREMENT` keeps: no row has an id that was not given out yet. -/
abbrev ShareTable : Type := { s : SqliteFileShare // ∀ r ∈ s.rows, r.id ≤ s.sequence }

theorem SqliteFileShare.add_inv (text : TextChannel) {s : SqliteFileShare} (h : ∀ r ∈ s.rows, r.id ≤ s.sequence)
    (name : JsString) (content : Bytes) (node : JsString) (contentType : Option JsString) (modified : JsString) :
    ∀ r ∈ (s.add text name content node contentType modified).2.rows,
      r.id ≤ (s.add text name content node contentType modified).2.sequence := by
  unfold SqliteFileShare.add
  by_cases hfull : s.maxTotalBytes < sizeSum s.rows + content.length
  · rw [if_pos hfull]
    exact h
  · rw [if_neg hfull]
    intro r hr
    rcases List.mem_append.mp hr with hr | hr
    · exact (h r hr).trans (Nat.le_succ _)
    · obtain rfl := List.mem_singleton.mp hr
      exact le_rfl

theorem SqliteFileShare.get_of_find {s : SqliteFileShare} {id : Number} {r : StoredFile}
    (h : s.rows.find? (SqliteFileShare.hasId id) = some r) : (s.get id).1 = .ok ⟨r.name, r.contentType, r.content⟩ := by
  rw [SqliteFileShare.get, h]

/-- `ISLAND_SHARE=sqlite`. -/
def sqliteShare (text : TextChannel) : FileShare ShareTable where
  add s name content node contentType modified :=
    ((s.1.add text name content node contentType modified).1,
      ⟨(s.1.add text name content node contentType modified).2,
        SqliteFileShare.add_inv text s.2 name content node contentType modified⟩)
  get s id := ((s.1.get id).1, s)
  column := text.carry
  column_text _ h := text.keeps h
  stored := by
    intro s name content node contentType modified f h
    show (((s.1.add text name content node contentType modified).2).get (.ofInt f.id)).1 = _
    replace h : (s.1.add text name content node contentType modified).1 = .ok f := h
    unfold SqliteFileShare.add at h ⊢
    by_cases hfull : s.1.maxTotalBytes < sizeSum s.1.rows + content.length
    · rw [if_pos hfull] at h
      cases h
    · rw [if_neg hfull] at h ⊢
      obtain rfl := Except.ok.inj h
      -- no row before this one has its id
      have hbefore : s.1.rows.find? (SqliteFileShare.hasId (.ofInt (s.1.sequence + 1 : Nat))) = none := by
        refine List.find?_eq_none.mpr fun r hr hid => ?_
        have hsame := Number.ofInt_natCast_inj (of_decide_eq_true hid)
        have := s.2 r hr
        omega
      refine SqliteFileShare.get_of_find (r := ⟨⟨s.1.sequence + 1, text.carry (sanitizeFileName name), content.length,
        text.carry node, text.carry modified⟩, contentType.map text.carry, content⟩) ?_
      rw [List.find?_append, hbefore, Option.none_or]
      exact List.find?_cons_of_pos (decide_eq_true rfl)
  room := by
    intro s name content node contentType modified f name' node' contentType' modified' h
    replace h : (s.1.add text name content node contentType modified).1 = .ok f := h
    show ∃ f', (s.1.add text name' content node' contentType' modified').1 = .ok f'
    unfold SqliteFileShare.add at h ⊢
    by_cases hfull : s.1.maxTotalBytes < sizeSum s.1.rows + content.length
    · rw [if_pos hfull] at h
      cases h
    · rw [if_neg hfull]
      exact ⟨_, rfl⟩

/-- Under this id the share returns a file of this name. -/
def Stores {σ : Type} (vega : FileShare σ) (s : σ) (id : Nat) (name : JsString) : Prop :=
  ∃ c, (vega.get s (.ofInt id)).1 = .ok c ∧ c.name = name

/-! ## The routes -/

/-- `MAX_UPLOAD`. -/
def maxUpload : Nat := 25 * 1024 * 1024

/-- `text || undefined`. -/
def orUndefined (text : JsString) : Option JsString := if text = [] then none else some text

/-- `POST /api/files` of an authorised node: the record, or the status of the refusal. -/
def uploadRoute {σ : Type} (vega : FileShare σ) (s : σ) (node fileName fileType : JsString) (content : Bytes)
    (modified : JsString) : Except Nat SharedFile × σ :=
  if maxUpload < content.length then (.error 413, s)
  else
    match vega.add s fileName content node (orUndefined fileType) modified with
    | (.ok added, s') => (.ok added, s')
    | (.error (.shareQuotaExceeded _), s') => (.error 507, s')
    | (.error (.fileNotFound _), s') => (.error 404, s')

/-- `name.replace(/[^\x20-\x7e]/g, "_").replace(/[\\"]/g, "_")`. -/
def asciiName (name : JsString) : JsString :=
  (name.map fun u => if 0x20 ≤ u ∧ u ≤ 0x7e then u else 0x5f).map fun u => if u = 0x5c ∨ u = 0x22 then 0x5f else u

/-- An uppercase hexadecimal digit. -/
def hexUpper (n : Nat) : UInt16 := if n < 10 then UInt16.ofNat (0x30 + n) else UInt16.ofNat (0x37 + n)

/-- `%XX`. -/
def percent (n : Nat) : JsString := [0x25, hexUpper (n / 16), hexUpper (n % 16)]

/-- What `encodeURIComponent` leaves as it is: letters, digits and `-_.!~*'()`. -/
def isUriUnreserved (u : UInt16) : Bool :=
  isDigit u || (0x41 ≤ u && u ≤ 0x5a) || (0x61 ≤ u && u ≤ 0x7a) || (js "-_.!~*'()").contains u

/-- `encodeURIComponent`; `none` is the `URIError` on a lone surrogate. -/
def encodeURIComponent (s : JsString) : Option JsString :=
  if toWellFormed s = s then
    some ((utf8Encode s).flatMap fun b =>
      if isUriUnreserved (UInt16.ofNat b.toNat) then [UInt16.ofNat b.toNat] else percent b.toNat)
  else none

/-- `encodeURIComponent(name).replace(/['()*]/g, …)`. -/
def starName (name : JsString) : Option JsString :=
  (encodeURIComponent name).map fun s => s.flatMap fun u => if (js "'()*").contains u then percent u.toNat else [u]

def contentDisposition (name : JsString) : Option JsString :=
  (starName name).map fun star =>
    js "attachment; filename=\"" ++ asciiName name ++ js "\"; filename*=UTF-8''" ++ star

structure Response where
  status             : Nat
  contentType        : JsString
  contentDisposition : Option JsString
  body               : Bytes

/-- An error response: its body is not the file. -/
def Response.failed (status : Nat) : Response := ⟨status, js "application/json", none, []⟩

/-- `contentType || "application/octet-stream"`. -/
def orOctetStream (contentType : Option JsString) : JsString :=
  match contentType with
  | some t => if t = [] then js "application/octet-stream" else t
  | none => js "application/octet-stream"

/-- `GET /api/files/:id/download` of an authorised node. A content type is printable ASCII, as the `type` of a `File` is,
    so that `new Response` takes it for a header. -/
def downloadRoute {σ : Type} (vega : FileShare σ) (s : σ) (id : Number) : Response :=
  match (vega.get s id).1 with
  | .error (.fileNotFound _) => .failed 404
  | .error (.shareQuotaExceeded _) => .failed 507
  | .ok c =>
      match contentDisposition c.name with
      | none => .failed 500
      | some disposition => ⟨200, orOctetStream c.contentType, some disposition, c.content⟩

/-- `path.match(/^\/api\/files\/(\d+)\/download$/)`: the digits. -/
def matchDownload (path : JsString) : Option JsString :=
  match expect (js "/api/files/") path with
  | none => none
  | some r =>
      if r.takeWhile isDigit ≠ [] ∧ r.dropWhile isDigit = js "/download" then some (r.takeWhile isDigit) else none

/-- Vega's answer to a `GET`, of a path that is a download. -/
def serveDownload {σ : Type} (vega : FileShare σ) (s : σ) (path : JsString) : Response :=
  match matchDownload path with
  | some digits => downloadRoute vega s (.ofInt (digitsValue digits))
  | none => .failed 404

/-! ## The spoke -/

/-- `[^"]*`. -/
def untilQuote (s : JsString) : JsString := s.takeWhile fun u => u ≠ 0x22

/-- The same behind a quotation mark. -/
def quotedPart : JsString → JsString
  | [] => []
  | u :: s => if u = 0x22 then untilQuote s else []

/-- A capture of at least one unit. -/
def captured (s : JsString) : Option JsString := if s = [] then none else some s

/-- `filename="?([^"]+)"?` at one place: with the quotation mark if that leaves something to capture. -/
def matchFilename (s : JsString) : Option JsString :=
  (expect (js "filename=") s).bind fun r => (captured (quotedPart r)).or (captured (untilQuote r))

/-- `cd.match(/filename="?([^"]+)"?/)`: the first place that matches. -/
def searchFilename : JsString → Option JsString
  | [] => none
  | u :: s =>
      match matchFilename (u :: s) with
      | some m => some m
      | none => searchFilename s

def filenameFromDisposition (cd : Option JsString) : JsString := ((cd.bind searchFilename).getD (js "download"))

inductive RemoteError where
  | fileNotFound (message : JsString)
  | error (message : JsString)
  deriving DecidableEq

/-- `RemoteFileShare.add`; `fileType` is what vega reads of the part's type. -/
def remoteAdd {σ : Type} (vega : FileShare σ) (fileType : JsString → JsString) (s : σ) (name : JsString)
    (content : Bytes) (node : JsString) (contentType : Option JsString) (modified : JsString) :
    Except RemoteError SharedFile × σ :=
  match uploadRoute vega s node (toWellFormed (sanitizeFileName name))
    (fileType (contentType.getD (js "application/octet-stream"))) content modified with
  | (.ok f, s') => (.ok f, s')
  | (.error status, s') => (.error (.error (js "remote add failed: " ++ natText status)), s')

def downloadPath (id : Nat) : JsString := js "/api/files/" ++ natText id ++ js "/download"

/-- `RemoteFileShare.get`. -/
def remoteGet {σ : Type} (vega : FileShare σ) (s : σ) (id : Nat) : Except RemoteError FileContent :=
  let r := serveDownload vega s (downloadPath id)
  if r.status = 404 then .error (.fileNotFound (js "no file " ++ natText id))
  else if r.status ≠ 200 then .error (.error (js "remote get failed: " ++ natText r.status))
  else .ok ⟨filenameFromDisposition r.contentDisposition, some r.contentType, r.body⟩

/-! ## Reading the header back -/

/-- Nothing the header has to escape: printable ASCII without quotation marks and backslashes, and not empty. -/
def HeaderSafe (name : JsString) : Prop :=
  name ≠ [] ∧ ∀ u ∈ name, 0x20 ≤ u ∧ u ≤ 0x7e ∧ u ≠ 0x22 ∧ u ≠ 0x5c

theorem asciiName_noQuote (name : JsString) : 0x22 ∉ asciiName name := by
  intro h
  obtain ⟨u, _, hu⟩ := List.mem_map.mp h
  split at hu
  · exact absurd hu (by decide)
  · next hne => exact hne (.inr hu)

/-- The two replacements leave a unit alone when neither has to act. -/
theorem asciiUnit_eq_self_iff (u : UInt16) :
    (if (if 0x20 ≤ u ∧ u ≤ 0x7e then u else 0x5f) = 0x5c ∨ (if 0x20 ≤ u ∧ u ≤ 0x7e then u else 0x5f) = 0x22 then 0x5f
      else if 0x20 ≤ u ∧ u ≤ 0x7e then u else 0x5f) = u ↔ 0x20 ≤ u ∧ u ≤ 0x7e ∧ u ≠ 0x22 ∧ u ≠ 0x5c := by
  by_cases hrange : 0x20 ≤ u ∧ u ≤ 0x7e
  · rw [if_pos hrange]
    by_cases hescape : u = 0x5c ∨ u = 0x22
    · rw [if_pos hescape]
      refine iff_of_false (fun h => ?_) fun h => hescape.elim h.2.2.2 h.2.2.1
      rcases hescape with rfl | rfl <;> exact absurd h (by decide)
    · rw [if_neg hescape]
      exact iff_of_true rfl ⟨hrange.1, hrange.2, fun h => hescape (.inr h), fun h => hescape (.inl h)⟩
  · rw [if_neg hrange, if_neg (by decide)]
    refine iff_of_false (fun h => hrange ?_) fun h => hrange ⟨h.1, h.2.1⟩
    rw [← h]
    decide

theorem asciiName_eq_self_iff {name : JsString} :
    asciiName name = name ↔ ∀ u ∈ name, 0x20 ≤ u ∧ u ≤ 0x7e ∧ u ≠ 0x22 ∧ u ≠ 0x5c := by
  rw [asciiName, List.map_map]
  conv_lhs => rw [← List.map_id name, List.map_map]
  rw [List.map_inj_left]
  exact forall_congr' fun u => imp_congr_right fun _ => asciiUnit_eq_self_iff u

theorem asciiName_eq_nil_iff {name : JsString} : asciiName name = [] ↔ name = [] := by
  rw [asciiName, List.map_eq_nil_iff, List.map_eq_nil_iff]

theorem expect_cons_ne {a u : UInt16} (h : u ≠ a) (p s : JsString) : expect (a :: p) (u :: s) = none := by
  have hne : (a == u) = false := beq_false_of_ne (Ne.symm h)
  rw [expect, List.isPrefixOf_cons_cons, hne, Bool.false_and, if_neg Bool.false_ne_true]

theorem js_filename : js "filename=" = 0x66 :: js "ilename=" := by decide

/-- Text in which `filename=` does not start is skipped. -/
theorem searchFilename_append {p : JsString} (h : ∀ u ∈ p, u ≠ 0x66) (s : JsString) :
    searchFilename (p ++ s) = searchFilename s := by
  induction p with
  | nil => rfl
  | cons u p ih =>
      obtain ⟨hu, hp⟩ := List.forall_mem_cons.mp h
      have hnone : matchFilename (u :: (p ++ s)) = none := by
        rw [matchFilename, js_filename, expect_cons_ne hu]
        rfl
      rw [List.cons_append, searchFilename, hnone]
      exact ih hp

theorem untilQuote_append {a : JsString} (h : 0x22 ∉ a) (rest : JsString) : untilQuote (a ++ 0x22 :: rest) = a := by
  have hkeep : ∀ u ∈ a, decide (u ≠ 0x22) = true := by
    intro u hu
    refine decide_eq_true fun heq => h ?_
    rw [← heq]
    exact hu
  rw [untilQuote, List.takeWhile_append_of_pos hkeep, List.takeWhile_cons_of_neg (by decide), List.append_nil]

theorem matchFilename_quoted {a : JsString} (hquote : 0x22 ∉ a) (hne : a ≠ []) (rest : JsString) :
    matchFilename (js "filename=" ++ 0x22 :: (a ++ 0x22 :: rest)) = some a := by
  rw [matchFilename, expect_append]
  show (captured (quotedPart (0x22 :: (a ++ 0x22 :: rest)))).or _ = _
  rw [quotedPart, if_pos rfl, untilQuote_append hquote, captured, if_neg hne, Option.some_or]

/-- **What the spoke reads** is the quoted part, whatever follows it. -/
theorem filenameFromDisposition_header {a : JsString} (hquote : 0x22 ∉ a) (hne : a ≠ []) (rest : JsString) :
    filenameFromDisposition (some (js "attachment; filename=\"" ++ a ++ 0x22 :: rest)) = a := by
  have hstart : js "attachment; filename=\"" = js "attachment; " ++ (js "filename=" ++ [0x22]) := by decide
  have hsplit : js "attachment; filename=\"" ++ a ++ 0x22 :: rest
      = js "attachment; " ++ (js "filename=" ++ 0x22 :: (a ++ 0x22 :: rest)) := by
    rw [hstart, List.append_assoc, List.append_assoc, List.append_assoc]
    rfl
  have hsearch : searchFilename (js "filename=" ++ 0x22 :: (a ++ 0x22 :: rest)) = some a := by
    have hmatch := matchFilename_quoted hquote hne rest
    rw [js_filename, List.cons_append] at hmatch ⊢
    rw [searchFilename, hmatch]
  have hclear : ((js "attachment; ").all fun u => u ≠ 0x66) = true := by decide
  have hskip : searchFilename (js "attachment; " ++ (js "filename=" ++ 0x22 :: (a ++ 0x22 :: rest))) = some a :=
    (searchFilename_append (fun u hu => of_decide_eq_true (List.all_eq_true.mp hclear u hu)) _).trans hsearch
  rw [filenameFromDisposition, hsplit, Option.bind_some, hskip]
  rfl

theorem captured_ne_nil {s m : JsString} (h : captured s = some m) : m ≠ [] := by
  unfold captured at h
  split at h
  · cases h
  · next hne =>
      obtain rfl := Option.some.inj h
      exact hne

theorem searchFilename_ne_nil : ∀ {s m : JsString}, searchFilename s = some m → m ≠ []
  | [], m, h => by cases h
  | u :: s, m, h => by
      rw [searchFilename] at h
      split at h
      · next hmatch =>
          obtain rfl := Option.some.inj h
          obtain ⟨r, _, hr⟩ := Option.bind_eq_some_iff.mp hmatch
          rcases Option.or_eq_some_iff.mp hr with hr | ⟨_, hr⟩
          · exact captured_ne_nil hr
          · exact captured_ne_nil hr
      · exact searchFilename_ne_nil h

/-- The spoke never returns an empty name. -/
theorem filenameFromDisposition_ne_nil (cd : Option JsString) : filenameFromDisposition cd ≠ [] := by
  unfold filenameFromDisposition
  cases h : cd.bind searchFilename with
  | none => decide
  | some m =>
      obtain ⟨s, _, hs⟩ := Option.bind_eq_some_iff.mp h
      exact searchFilename_ne_nil hs

/-- **The name that comes back** is the name exactly when the header carries it unescaped. -/
theorem contentDisposition_name_iff {name disposition : JsString} (h : contentDisposition name = some disposition) :
    filenameFromDisposition (some disposition) = name ↔ HeaderSafe name := by
  obtain ⟨star, _, rfl⟩ := Option.map_eq_some_iff.mp h
  by_cases hnil : name = []
  · subst hnil
    exact iff_of_false (filenameFromDisposition_ne_nil _) fun h => h.1 rfl
  · have hne : asciiName name ≠ [] := fun h => hnil (asciiName_eq_nil_iff.mp h)
    have htail : js "\"; filename*=UTF-8''" = 0x22 :: js "; filename*=UTF-8''" := by decide
    rw [List.append_assoc, htail, List.cons_append,
      filenameFromDisposition_header (asciiName_noQuote name) hne, asciiName_eq_self_iff]
    exact ⟨fun hall => ⟨hnil, hall⟩, fun hsafe => hsafe.2⟩

theorem HeaderSafe.contentDisposition {name : JsString} (h : HeaderSafe name) :
    ∃ disposition, contentDisposition name = some disposition := by
  have hascii : IsAscii name := fun u hu =>
    Nat.lt_of_le_of_lt (UInt16.le_iff_toNat_le.mp (h.2 u hu).2.1) (by decide)
  have huri : encodeURIComponent name ≠ none := by
    rw [encodeURIComponent, if_pos (toWellFormed_of_wellFormed hascii.wellFormed)]
    exact Option.some_ne_none _
  obtain ⟨s, hs⟩ := Option.ne_none_iff_exists'.mp huri
  exact ⟨_, Option.map_eq_some_iff.mpr ⟨_, Option.map_eq_some_iff.mpr ⟨s, hs, rfl⟩, rfl⟩⟩

theorem matchDownload_downloadPath (id : Nat) : matchDownload (downloadPath id) = some (natText id) := by
  have hdigits := natText_digits id
  have htake : (natText id ++ js "/download").takeWhile isDigit = natText id := by
    rw [List.takeWhile_append_of_pos hdigits]
    exact (congrArg _ (List.takeWhile_cons_of_neg (by decide))).trans (List.append_nil _)
  have hdrop : (natText id ++ js "/download").dropWhile isDigit = js "/download" := by
    rw [List.dropWhile_append_of_pos hdigits]
    exact List.dropWhile_cons_of_neg (by decide)
  rw [matchDownload, downloadPath, List.append_assoc, expect_append]
  show (if (natText id ++ js "/download").takeWhile isDigit ≠ [] ∧ _ then _ else _) = _
  rw [htake, hdrop, if_pos ⟨natText_ne_nil id, rfl⟩]

section Transparent

variable {σ : Type} (vega : FileShare σ) (s : σ)

theorem serveDownload_downloadPath (id : Nat) :
    serveDownload vega s (downloadPath id) = downloadRoute vega s (.ofInt id) := by
  rw [serveDownload, matchDownload_downloadPath]
  show downloadRoute vega s (.ofInt (digitsValue (natText id))) = _
  rw [digitsValue_natText]

/-- A download gives the spoke the file as vega has it exactly when its name is safe in the header. -/
theorem remoteGet_iff {id : Nat} {c : FileContent} (h : (vega.get s (.ofInt id)).1 = .ok c) :
    (∃ c', remoteGet vega s id = .ok c' ∧ c'.name = c.name ∧ c'.content = c.content) ↔ HeaderSafe c.name := by
  have hroute : serveDownload vega s (downloadPath id) = match contentDisposition c.name with
      | none => .failed 500
      | some disposition => ⟨200, orOctetStream c.contentType, some disposition, c.content⟩ := by
    rw [serveDownload_downloadPath, downloadRoute, h]
  cases hcd : contentDisposition c.name with
  | none =>
      -- only a name with a lone surrogate has no header
      rw [hcd] at hroute
      refine iff_of_false ?_ fun hsafe => ?_
      · rintro ⟨c', hget, _⟩
        rw [remoteGet, hroute] at hget
        cases hget
      · obtain ⟨d, hd⟩ := hsafe.contentDisposition
        rw [hcd] at hd
        cases hd
  | some disposition =>
      rw [hcd] at hroute
      have hget : remoteGet vega s id
          = .ok ⟨filenameFromDisposition (some disposition), some (orOctetStream c.contentType), c.content⟩ := by
        rw [remoteGet, hroute]
        rfl
      rw [← contentDisposition_name_iff hcd]
      constructor
      · rintro ⟨c', hc', hname, _⟩
        obtain rfl := Except.ok.inj (hget.symm.trans hc')
        exact hname
      · intro hname
        exact ⟨_, hget, hname, rfl⟩

/-- What `add` stores a file under. -/
theorem stores_added {s : σ} {name node modified : JsString} {content : Bytes} {contentType : Option JsString}
    {f : SharedFile} (h : (vega.add s name content node contentType modified).1 = .ok f) {stored : JsString} :
    Stores vega (vega.add s name content node contentType modified).2 f.id stored ↔
      vega.column (sanitizeFileName name) = stored := by
  have hget := vega.stored h
  constructor
  · rintro ⟨c, hc, rfl⟩
    obtain rfl := Except.ok.inj (hget.symm.trans hc)
    rfl
  · rintro rfl
    exact ⟨_, hget, rfl⟩

/-- An upload stores the name that vega would have stored exactly when it is not too large and the second pass, over
    what the form field carries, leaves the name as it is stored. -/
theorem remoteAdd_iff {fileType : JsString → JsString} {raw : JsString} {content : Bytes}
    {node node' modified : JsString} {contentType contentType' : Option JsString} {f : SharedFile}
    (hraw : WellFormed raw) (h : (vega.add s raw content node contentType modified).1 = .ok f) :
    (∃ f' name, (remoteAdd vega fileType s raw content node' contentType' modified).1 = .ok f' ∧
        Stores vega (remoteAdd vega fileType s raw content node' contentType' modified).2 f'.id name ∧
        Stores vega (vega.add s raw content node contentType modified).2 f.id name) ↔
      content.length ≤ maxUpload ∧ ¬CutsAtSpace raw ∧
        (SplitsPair raw → vega.column (sanitizeFileName raw) = toWellFormed (sanitizeFileName raw)) := by
  rw [← sanitizeFileName_twice_iff hraw vega.column_text]
  unfold remoteAdd uploadRoute
  -- the spoke has cleaned the name, the form field makes it well formed, and vega cleans it again
  by_cases hlarge : maxUpload < content.length
  · rw [if_pos hlarge]
    refine iff_of_false ?_ fun hok => absurd hok.1 (Nat.not_le.mpr hlarge)
    rintro ⟨f', _, hf', _⟩
    cases hf'
  · rw [if_neg hlarge]
    obtain ⟨f', hf'⟩ := vega.room (toWellFormed (sanitizeFileName raw)) node'
      (orUndefined (fileType (contentType'.getD (js "application/octet-stream")))) modified h
    have hstores := @stores_added _ vega _ _ _ _ _ _ _ hf'
    cases hadd : vega.add s (toWellFormed (sanitizeFileName raw)) content node'
      (orUndefined (fileType (contentType'.getD (js "application/octet-stream")))) modified with
    | mk result s' =>
        rw [hadd] at hf' hstores
        obtain rfl : result = .ok f' := hf'
        constructor
        · rintro ⟨f'', name, hf'', hremote, hdirect⟩
          obtain rfl := Except.ok.inj hf''
          exact ⟨Nat.not_lt.mp hlarge, (hstores.mp hremote).trans ((stores_added vega h).mp hdirect).symm⟩
        · rintro ⟨_, heq⟩
          exact ⟨f', _, rfl, hstores.mpr heq, (stores_added vega h).mpr rfl⟩

/-- **A spoke sees vega's share as it is** on exactly these files: an upload of at most 25 MiB in whose cleaned name
    the cut leaves no white space at the end and, where it splits a pair, the half that is left is replaced when it is
    stored; and a download of a file whose name the header carries unescaped. -/
theorem remote_share_transparent_iff (fileType : JsString → JsString) :
    (∀ raw content node node' contentType contentType' modified f, WellFormed raw →
      (vega.add s raw content node contentType modified).1 = .ok f →
        ((∃ f' name, (remoteAdd vega fileType s raw content node' contentType' modified).1 = .ok f' ∧
            Stores vega (remoteAdd vega fileType s raw content node' contentType' modified).2 f'.id name ∧
            Stores vega (vega.add s raw content node contentType modified).2 f.id name) ↔
          content.length ≤ maxUpload ∧ ¬CutsAtSpace raw ∧
            (SplitsPair raw → vega.column (sanitizeFileName raw) = toWellFormed (sanitizeFileName raw)))) ∧
    ∀ id c, (vega.get s (.ofInt (id : Nat))).1 = .ok c →
      ((∃ c', remoteGet vega s id = .ok c' ∧ c'.name = c.name ∧ c'.content = c.content) ↔ HeaderSafe c.name) :=
  ⟨fun _ _ _ _ _ _ _ _ hraw h => remoteAdd_iff vega s hraw h, fun _ _ h => remoteGet_iff vega s h⟩

end Transparent

namespace Symbolic

/-- 159 letters, a space and a letter: the cut after 160 units leaves the space at the end. -/
def spacedName : JsString := List.replicate 159 0x61 ++ js " b"

/-- Vega with room for a hundred bytes, holding one file of the given name. -/
def holding (name : JsString) : MemoryFileShare :=
  (memoryShare.add (.new 100) name [7] (js "vega") none (js "1970-01-01T00:00:00.000Z")).2

theorem spacedName_wellFormed : WellFormed spacedName := by
  apply IsAscii.wellFormed
  exact IsAscii.of_all (by decide)

/-- A file named `é` downloads as `_`, and an upload loses the space that vega itself would keep. -/
theorem remote_share_differs :
    (¬∀ id c, (memoryShare.get (holding [0xe9]) (.ofInt (id : Nat))).1 = .ok c →
      ∃ c', remoteGet memoryShare (holding [0xe9]) id = .ok c' ∧ c'.name = c.name ∧ c'.content = c.content) ∧
    ¬∀ f, (memoryShare.add (.new 100) spacedName [7] (js "pi") none (js "1970-01-01T00:00:00.000Z")).1 = .ok f →
      ∃ f' name, (remoteAdd memoryShare id (.new 100) spacedName [7] (js "pi") none (js "1970-01-01T00:00:00.000Z")).1
          = .ok f' ∧
        Stores memoryShare (remoteAdd memoryShare id (.new 100) spacedName [7] (js "pi") none
          (js "1970-01-01T00:00:00.000Z")).2 f'.id name ∧
        Stores memoryShare (memoryShare.add (.new 100) spacedName [7] (js "pi") none
          (js "1970-01-01T00:00:00.000Z")).2 f.id name := by
  constructor
  · intro h
    obtain ⟨c', hc', hname, _⟩ := h 1 ⟨[0xe9], none, [7]⟩ (by decide +kernel)
    have hget : remoteGet memoryShare (holding [0xe9]) 1 = .ok ⟨js "_", some (js "application/octet-stream"), [7]⟩ := by
      decide +kernel
    obtain rfl := Except.ok.inj (hget.symm.trans hc')
    exact absurd hname (by decide)
  · intro h
    have hadd : (memoryShare.add (.new 100) spacedName [7] (js "pi") none (js "1970-01-01T00:00:00.000Z")).1
        = .ok ⟨1, List.replicate 159 0x61 ++ js " ", 1, js "pi", js "1970-01-01T00:00:00.000Z"⟩ := by decide +kernel
    have hsame := (remoteAdd_iff memoryShare _ spacedName_wellFormed hadd).mp (h _ hadd)
    exact hsame.2.1 ⟨0x20, by decide, by decide⟩

theorem cutPairName_wellFormed : WellFormed cutPairName := by
  have hpair : WellFormed ([0xd83d, 0xde00] ++ js ".txt") := by
    show WellFormed (0xd83d :: 0xde00 :: js ".txt")
    rw [WellFormed, if_pos (by decide)]
    exact (IsAscii.of_all (by decide)).wellFormed
  rw [cutPairName, List.append_assoc]
  exact (IsAscii.of_all (by decide)).wellFormed.append hpair

/-- An empty table. -/
def emptyTable : ShareTable := ⟨.new (js "vega:island.db") (js "wg0:8787") 100, List.forall_mem_nil _⟩

/-- The table replaces the half that the cut has left of an emoji, as the form field does; and a plain name comes back
    from vega. -/
theorem shared_alike :
    (∃ f' name, (remoteAdd (sqliteShare replacing) id emptyTable cutPairName [7] (js "pi") none
          (js "1970-01-01T00:00:00.000Z")).1 = .ok f' ∧
        Stores (sqliteShare replacing) (remoteAdd (sqliteShare replacing) id emptyTable cutPairName [7] (js "pi") none
          (js "1970-01-01T00:00:00.000Z")).2 f'.id name ∧
        Stores (sqliteShare replacing) ((sqliteShare replacing).add emptyTable cutPairName [7] (js "vega") none
          (js "1970-01-01T00:00:00.000Z")).2 1 name) ∧
      ∃ c', remoteGet memoryShare (holding (js "report.txt")) 1 = .ok c' ∧ c'.name = js "report.txt" ∧
        c'.content = [7] := by
  have hadd : ((sqliteShare replacing).add emptyTable cutPairName [7] (js "vega") none
      (js "1970-01-01T00:00:00.000Z")).1 = .ok ⟨1, List.replicate 159 0x61 ++ [0xd83d], 1, js "vega",
        js "1970-01-01T00:00:00.000Z"⟩ := by decide +kernel
  have hspace : ¬CutsAtSpace cutPairName := by
    rintro ⟨u, hu, hspace⟩
    have hunit : (cleanName cutPairName)[159]? = some 0xd83d := by decide
    obtain rfl := Option.some.inj (hunit.symm.trans hu)
    exact absurd hspace (by decide)
  have hget : (memoryShare.get (holding (js "report.txt")) (.ofInt (1 : Nat))).1 = .ok ⟨js "report.txt", none, [7]⟩ := by
    decide +kernel
  constructor
  · refine ((remote_share_transparent_iff (sqliteShare replacing) emptyTable id).1 _ _ _ _ _ _ _ _
      cutPairName_wellFormed hadd).mpr ⟨?_, hspace, fun _ => rfl⟩
    decide
  · refine ((remote_share_transparent_iff memoryShare (holding (js "report.txt")) id).2 1 _ hget).mpr ?_
    refine ⟨by decide, ?_⟩
    have hall : ((js "report.txt").all fun u => 0x20 ≤ u ∧ u ≤ 0x7e ∧ u ≠ 0x22 ∧ u ≠ 0x5c) = true := by decide
    exact fun u hu => of_decide_eq_true (List.all_eq_true.mp hall u hu)

end Symbolic

end Island
end VpnPi
