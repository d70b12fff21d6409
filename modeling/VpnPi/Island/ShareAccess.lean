import VpnPi.Island.BookAlike
import VpnPi.Island.Removal

/-!
# `Island.ShareAccess` — who the file share lets in, and as whom (`main.ts`, `core/friends.ts`)

`authorizeShare` takes a caller that is not the operator for the friend whose record names the caller's address. The
address in a record is the friend's own claim, carried by its token or its accept.

* `served_iff` — in every run of a daemon's book the lookup succeeds, and finds a key exactly if it is the only friend that
  claims the address, a mesh address that is not the node's own.
* `served_at_home` — where the friend is one of the nodes, the address is that node's own: nobody is served in its name
  from elsewhere.
-/

namespace VpnPi
namespace Island

open Js Async Pool Value

/-! ## The lookup -/

/-- `ctx.book.friendByWg0(ip)`, and the `peer.ed25519` that `authorizeShare` returns for it. -/
def shareFriend (me : Self) (addr : JsString) (b : FriendBook) : Except Exn (Option Value) := do
  let friend ← friendByWg0 me addr b
  if friend.truthy then do
    let key ← prop friend (js "peer") >>= fun peer => prop peer (js "ed25519")
    pure (some key)
  else pure none

/-- `r.peer.wg0`. -/
def wg0Of (r : Value) : Except Exn Value := prop r (js "peer") >>= fun peer => prop peer (js "wg0")

/-- The friend stored under the key claims the address. -/
def Claims (b : FriendBook) (K ip : JsString) : Prop :=
  ∃ record, b.friends.get K = some record ∧ wg0Of record = .ok (.str ip)

/-- The address is this mesh address, as it is or mapped into IPv6. -/
def OnMesh (addr ip : JsString) : Prop :=
  (addr = ip ∨ addr = js "::ffff:" ++ ip) ∧ ∃ host, ip = js "10.42.0." ++ host ∧ host.length ≤ 3 ∧
    (∀ u ∈ host, isDigit u = true) ∧ 1 ≤ digitsValue host ∧ digitsValue host ≤ 254

variable {P : Platform} {me : Self} {b : FriendBook} {addr ip : JsString}

theorem meshRe_sharp : RegExp.Sharp meshRe fun t => t = [] := by
  have hdigits : RegExp.Sharp (.group (.reps isDigit 1 (some 3))) (RegExp.Stops isDigit) := .group (.reps 1 (some 3))
  apply RegExp.Sharp.seq_lit
  refine hdigits.seq (.lit [] _) (RegExp.Opens.empty fun t ht u hu => ?_)
  rw [ht] at hu
  cases hu

theorem meshRe_exec {s : JsString} {caps : RegExp.Captures} :
    meshRe.exec s = some caps ↔ ∃ host, s = js "10.42.0." ++ host ∧ host.length ∈ Set.Icc 1 3 ∧
      (∀ u ∈ host, isDigit u = true) ∧ caps = [some host] := by
  rw [RegExp.exec_eq_some_iff meshRe_sharp]
  have hdigits := RegExp.Reads.upTo 3 isDigit
  constructor
  · intro h
    obtain ⟨_, rfl, _, rfl, hgroup⟩ := (RegExp.Reads.lit _).seq_iff.mp h
    obtain ⟨host, ⟨hlength, hall⟩, _, _, rfl, rfl, hend⟩ := hdigits.group_iff.mp hgroup
    cases hend
    exact ⟨host, by rw [List.append_nil], hlength, hall, rfl⟩
  · rintro ⟨host, rfl, hlength, hall, rfl⟩
    refine (RegExp.Reads.lit _).seq_iff.mpr ⟨_, rfl, _, rfl, ?_⟩
    exact hdigits.group_iff.mpr ⟨host, ⟨hlength, hall⟩, [], [], (List.append_nil host).symm, rfl, .lit []⟩

/-- What `meshWg0` makes of an address without the prefix of mapped ones. -/
theorem meshHost_eq_some {s : JsString} : (match meshRe.exec s with
      | some [some host] => if 1 ≤ digitsValue host ∧ digitsValue host ≤ 254 then some s else none
      | _ => none) = some ip ↔ s = ip ∧ ∃ host, ip = js "10.42.0." ++ host ∧ host.length ≤ 3 ∧
        (∀ u ∈ host, isDigit u = true) ∧ 1 ≤ digitsValue host ∧ digitsValue host ≤ 254 := by
  constructor
  · intro h
    split at h
    · next host hexec =>
        obtain ⟨host', hs, hlength, hall, hcaps⟩ := meshRe_exec.mp hexec
        obtain rfl : host = host' := Option.some.inj (List.cons.inj hcaps).1
        split at h
        · next hvalue =>
            obtain rfl := Option.some.inj h
            exact ⟨rfl, host, hs, hlength.2, hall, hvalue⟩
        · cases h
    · cases h
  · rintro ⟨rfl, host, hs, hlength, hall, hvalue⟩
    have hne : 1 ≤ host.length := by
      rw [Nat.one_le_iff_ne_zero]
      intro hnil
      rw [List.length_eq_zero_iff.mp hnil] at hvalue
      exact absurd hvalue.1 (by decide)
    rw [meshRe_exec.mpr ⟨host, hs, ⟨hne, hlength⟩, hall, rfl⟩]
    exact if_pos hvalue

/-- **`meshWg0`** takes the mesh addresses for what they are. -/
theorem meshWg0_eq_some : meshWg0 addr = some ip ↔ OnMesh addr ip := by
  refine (meshHost_eq_some ).trans ?_
  apply and_congr_left
  intro hip
  obtain ⟨host, rfl, _⟩ := hip
  constructor
  · intro h
    split at h
    · next hprefix =>
        obtain ⟨rest, rfl⟩ := hprefix
        exact .inr (congrArg (js "::ffff:" ++ ·) h)
    · exact .inl h
  · rintro (rfl | rfl)
    · exact if_neg fun ⟨rest, hrest⟩ => absurd (congrArg List.head? hrest) (by simp [js])
    · exact if_pos (List.prefix_append ..)

/-! ## The loop -/

/-- A record that names the address. -/
def names (ip : JsString) (r : Value) : Bool := (wg0Of r).toOption = some (.str ip)

theorem names_iff {r : Value} : names ip r = true ↔ wg0Of r = .ok (.str ip) := by
  unfold names
  cases wg0Of r with
  | error e => simp [Except.toOption]
  | ok v => simp [Except.toOption]

/-- A record whose address can be read. -/
def Readable (r : Value) : Prop := r.truthy = true ∧ ∃ v, wg0Of r = .ok v

theorem findWg0_cons {r found : Value} {rs : List Value} (h : Readable r) :
    findWg0 ip (r :: rs) found =
      if names ip r then if found.truthy then .ok .undefined else findWg0 ip rs r else findWg0 ip rs found := by
  obtain ⟨v, hv⟩ := h.2
  have hnames : names ip r = true ↔ v = .str ip := by
    rw [names_iff, hv, Except.ok.injEq]
  have hloop : findWg0 ip (r :: rs) found = if v ≠ .str ip then findWg0 ip rs found
      else if found.truthy then .ok .undefined else findWg0 ip rs r := by
    show (wg0Of r >>= _) = _
    rw [hv]
    rfl
  rw [hloop]
  by_cases heq : v = .str ip
  · rw [if_neg (not_not.mpr heq), if_pos (hnames.mpr heq)]
  · rw [if_pos heq, if_neg (mt hnames.mp heq)]

/-- A second claim ends the loop. -/
theorem findWg0_found {rs : List Value} (h : ∀ r ∈ rs, Readable r) {found : Value} (hfound : found.truthy = true) :
    findWg0 ip rs found = .ok (if rs.filter (names ip) = [] then found else .undefined) := by
  induction rs with
  | nil => rfl
  | cons r rs ih =>
      obtain ⟨hr, hrs⟩ := List.forall_mem_cons.mp h
      rw [findWg0_cons hr, ih hrs]
      by_cases hnames : names ip r = true
      · simp [hnames, hfound]
      · simp [hnames]

/-- **The loop** finds the record that is alone in naming the address. -/
theorem findWg0_eq {rs : List Value} (h : ∀ r ∈ rs, Readable r) :
    findWg0 ip rs .undefined = .ok (match rs.filter (names ip) with
      | [r] => r
      | _ => .undefined) := by
  induction rs with
  | nil => rfl
  | cons r rs ih =>
      obtain ⟨hr, hrs⟩ := List.forall_mem_cons.mp h
      rw [findWg0_cons hr]
      by_cases hnames : names ip r = true
      · rw [if_pos hnames, if_neg (by simp [truthy]), findWg0_found hrs hr.1, List.filter_cons_of_pos hnames]
        cases rs.filter (names ip) with
        | nil => rfl
        | cons r' rs' => rfl
      · rw [if_neg hnames, ih hrs, List.filter_cons_of_neg hnames]

/-! ## Whom an address stands for -/

/-- The entries that name the address. -/
def claimants (b : FriendBook) (ip : JsString) : List (JsString × Value) := b.friends.entries.filter fun e => names ip e.2

theorem mem_claimants {e : JsString × Value} : e ∈ claimants b ip ↔ b.friends.get e.1 = some e.2 ∧ wg0Of e.2 = .ok (.str ip) := by
  rw [claimants, List.mem_filter, OrdMap.mem_entries_iff, names_iff]

theorem claims_iff {K : JsString} : Claims b K ip ↔ ∃ record, (K, record) ∈ claimants b ip := by
  simp only [Claims, mem_claimants]

/-- One entry is alone in naming the address. -/
theorem claimants_singleton {e : JsString × Value} :
    claimants b ip = [e] ↔ e ∈ claimants b ip ∧ ∀ e' ∈ claimants b ip, e'.1 = e.1 := by
  have hnodup : (claimants b ip).Nodup := (List.Nodup.of_map Prod.fst b.friends.nodup).filter _
  constructor
  · intro h
    rw [h]
    refine ⟨List.mem_singleton_self e, fun e' he' => ?_⟩
    rw [List.mem_singleton.mp he']
  · rintro ⟨hmem, halone⟩
    rw [← List.perm_singleton, List.perm_ext_iff_of_nodup hnodup (List.nodup_singleton e)]
    intro e'
    rw [List.mem_singleton]
    constructor
    · intro he'
      -- a key has one record
      have hget := (mem_claimants.mp he').1
      rw [halone e' he', (mem_claimants.mp hmem).1] at hget
      exact Prod.ext (halone e' he') (Option.some.inj hget).symm
    · rintro rfl
      exact hmem

theorem Keyed.readable (h : Keyed P b) : ∀ r ∈ b.friends.values, Readable r := by
  refine forall_values fun K r hget => ?_
  obtain ⟨peer, hpeer, hkey⟩ := h.friends K r hget
  obtain ⟨fields, rfl⟩ := obj_of_prop hkey.own (plain_ne_undefined trivial)
  obtain ⟨es, rfl⟩ := obj_of_prop hpeer (fun h => by cases h)
  have hwg0 : wg0Of (.obj es) = prop (.obj fields) (js "wg0") := by
    rw [wg0Of, hpeer]
    rfl
  exact ⟨rfl, _, hwg0.trans rfl⟩

/-- **`authorizeShare`'s lookup**, as the entries that name the address. -/
theorem shareFriend_eq (h : Keyed P b) : shareFriend me addr b = .ok (match meshWg0 addr with
    | none => none
    | some ip => if ip = me.wg0 then none else match claimants b ip with
      | [e] => some (.str e.1)
      | _ => none) := by
  unfold shareFriend friendByWg0
  cases meshWg0 addr with
  | none => rfl
  | some ip =>
      dsimp only
      by_cases hown : ip = me.wg0
      · rw [if_pos hown, if_pos hown]
        rfl
      · rw [if_neg hown, if_neg hown, findWg0_eq h.readable]
        have hvalues : b.friends.values.filter (names ip) = (claimants b ip).map Prod.snd := by
          rw [OrdMap.values, List.filter_map]
          rfl
        rw [hvalues]
        -- none, one or several claim the address; only of one is the key looked at
        cases hcase : claimants b ip with
        | nil => rfl
        | cons e es =>
            cases es with
            | nil =>
                have hmem : e ∈ claimants b ip := hcase ▸ List.mem_singleton_self e
                obtain ⟨peer, hpeer, hkey⟩ := h.friends e.1 e.2 (mem_claimants.mp hmem).1
                have htruthy := (h.readable e.2 (List.mem_map_of_mem (OrdMap.mem_entries_iff.mpr (mem_claimants.mp hmem).1))).1
                show (if e.2.truthy then (prop e.2 (js "peer") >>= fun peer => prop peer (js "ed25519")) >>= fun key => pure (some key)
                  else pure none) = Except.ok (some (Value.str e.1))
                rw [if_pos htruthy, hpeer, show (Except.ok peer >>= fun peer => prop peer (js "ed25519")) = _ from hkey.own]
                rfl
            | cons e' es => rfl

/-- **Whom the lookup finds**: the one friend that claims the address. -/
theorem shareFriend_iff (h : Keyed P b) : ∃ found, shareFriend me addr b = .ok found ∧ ∀ key, found = some key ↔
    ∃ K ip, key = .str K ∧ OnMesh addr ip ∧ ip ≠ me.wg0 ∧ Claims b K ip ∧ ∀ K', Claims b K' ip → K' = K := by
  refine ⟨_, shareFriend_eq h, fun key => ?_⟩
  have alone (ip : JsString) : (match claimants b ip with
      | [e] => some (Value.str e.1)
      | _ => none) = some key ↔ ∃ K, key = .str K ∧ Claims b K ip ∧ ∀ K', Claims b K' ip → K' = K := by
    constructor
    · intro h
      split at h
      · next e hcase =>
          obtain ⟨hmem, halone⟩ := claimants_singleton.mp hcase
          refine ⟨e.1, (Option.some.inj h).symm, claims_iff.mpr ⟨e.2, hmem⟩, fun K' hK' => ?_⟩
          obtain ⟨record, hrecord⟩ := claims_iff.mp hK'
          exact halone _ hrecord
      · cases h
    · rintro ⟨K, rfl, hclaims, halone⟩
      obtain ⟨record, hrecord⟩ := claims_iff.mp hclaims
      rw [claimants_singleton.mpr ⟨hrecord, fun e' he' => halone e'.1 (claims_iff.mpr ⟨e'.2, he'⟩)⟩]
  constructor
  · intro h
    cases hmesh : meshWg0 addr with
    | none => simp [hmesh] at h
    | some ip =>
        rw [hmesh] at h
        dsimp only at h
        split at h
        · cases h
        · next hown =>
            obtain ⟨K, hK, hclaims⟩ := (alone ip).mp h
            exact ⟨K, ip, hK, meshWg0_eq_some.mp hmesh, hown, hclaims⟩
  · rintro ⟨K, ip, hK, hmesh, hown, hclaims⟩
    rw [meshWg0_eq_some.mpr hmesh]
    dsimp only
    rw [if_neg hown]
    exact (alone ip).mpr ⟨K, hK, hclaims⟩

/-- **Who is served from an address.** In every run of a daemon's book the lookup succeeds. It finds a key exactly if a
    friend with that key claims the address, no other friend does, and the address is a mesh address, not the node's own. -/
theorem served_iff (P : Platform) (me : Self) {tr : List (LifeEvent P)} {p : BookPool P}
    (run : Run (LifeStep P me) ⟨.empty, []⟩ tr p) (addr : JsString) :
    ∃ found, shareFriend me addr p.state = .ok found ∧ ∀ key, found = some key ↔ ∃ K ip, key = .str K ∧ OnMesh addr ip ∧
      ip ≠ me.wg0 ∧ Claims p.state K ip ∧ ∀ K', Claims p.state K' ip → K' = K :=
  shareFriend_iff (lifeInv_of_run run).book.keyed

/-! ## The address in a node's own record -/

namespace Home

open Removal (Event LivesStep unused lives_inv)

/-- What a node signs, its tokens and accepts with its own address in them. -/
inductive Signed (P : Platform) (me : Self) : Value → Prop
  | token {ttlSeconds : ℚ} {random : Bytes} {now : Instant} {t view : Value}
      (made : makeToken P me ttlSeconds random now = .ok t) (hview : tokenSignable t = .ok view) : Signed P me view
  | accept {ref : Value} (now : Instant) (wf : ref.WF P.toEngine) : Signed P me (acceptView P me ref now)
  | other {k : Kind} {w : Value} (htoken : k ≠ .token) (haccept : k ≠ .accept) (h : Signs P me.id.edPublic k w) :
      Signed P me w

variable (P) {ι : Type} [DecidableEq ι] (nodes : ι → Self)

/-- **Signatures are unforgeable**: what a call has verified under the key of a node, the node has signed. -/
def Unforged (e : Event P ι) : Prop :=
  ∀ n l pk view m, e = (n, .call l) → Network.Checks P nodes (n, l) pk view → (nodes m).id.edPublic = pk →
    ∃ w, Signed P (nodes m) w ∧ canonicalBytes w = canonicalBytes view

/-- A peer with the key of a node has the address of that node. -/
structure PeerAtHome (K : JsString) (peer : Value) : Prop where
  key : KeyOf P K peer
  wg0 : ∀ m, fromB64 P (.str K) = .ok (nodes m).id.edPublic → prop peer (js "wg0") = .ok (.str (nodes m).wg0)

structure AtHome (b : FriendBook) : Prop where
  pending : ∀ K p, b.pending.get K = some p → ∃ token peer, prop p (js "token") = .ok token ∧
    prop token (js "from") = .ok peer ∧ PeerAtHome P nodes K peer
  friends : ∀ K r, b.friends.get K = some r → ∃ peer, prop r (js "peer") = .ok peer ∧ PeerAtHome P nodes K peer

variable {P nodes} {n m : ι} {K : JsString}

omit [DecidableEq ι] in
theorem AtHome.empty : AtHome P nodes .empty := by
  refine ⟨fun K p h => ?_, fun K r h => ?_⟩
  · cases h
  · cases h

omit [DecidableEq ι] in
/-- **What a node has signed** as a token or an accept says where the node is. -/
theorem Signed.home {me : Self} {w view pub wg0 : Value} {k : Kind} (h : Signed P me w) (hshape : k.Shaped view)
    (hk : k = .token ∨ k = .accept) (hwf : view.WF P.toEngine) {bytes : Bytes} (hw : canonicalBytes w = .ok bytes)
    (hbytes : canonicalBytes view = .ok bytes) (hfrom : prop view (js "from") = .ok pub)
    (hwg0 : prop pub (js "wg0") = .ok wg0) : wg0 = .str me.wg0 := by
  have named (hwwf : w.WF P.toEngine) (hwfrom : prop w (js "from") = .ok (peerPubOf P me)) : wg0 = .str me.wg0 := by
    have hjson : JsonEq w view := canonicalBytes_inj hwwf hwf hw hbytes
    have hpeer := hjson.field hwwf hwf hwfrom hfrom
    exact (hpeer.field (k := js "wg0") (peerPubOf_wf P me) (prop_wf hwf hfrom) rfl hwg0).eq_str
  cases h with
  | token made hview =>
      obtain ⟨_, _, _, _, rfl⟩ := makeToken_ok made
      have hsame := Except.ok.inj hview
      exact named (tokenSignable_wf (makeToken_wf made) hview) (by rw [← hsame]; rfl)
  | accept now wf =>
      refine named ?_ rfl
      exact ⟨show [js "v", js "from", js "ref", js "issued"].Nodup by decide, one_wf P, peerPubOf_wf P me, wf, trivial, trivial⟩
  | other htoken haccept hsigns =>
      -- nothing else that is signed has those fields
      have hjson : JsonEq w view := canonicalBytes_inj hsigns.wf hwf hw hbytes
      obtain rfl := hsigns.shaped.eq hshape hjson
      rcases hk with rfl | rfl
      · exact absurd rfl htoken
      · exact absurd rfl haccept

omit [DecidableEq ι] in
/-- **A peer that a call has checked** has its own address, if it is one of the nodes. -/
theorem Unforged.peer {l : Label (BookCall P) FriendBook Exn Value} (hunforged : Unforged P nodes (n, .call l))
    {v view peer sig : Value} {k : Kind} (hcheck : ∀ pk, Network.NamesKey P v pk → Network.Checks P nodes (n, l) pk view)
    (hshape : k.Shaped view) (hk : k = .token ∨ k = .accept) (hwf : view.WF P.toEngine)
    (hpeer : prop v (js "from") = .ok peer) (hview : ∃ pub, peerPubJson peer = .ok pub ∧ prop view (js "from") = .ok pub)
    (hkey : prop peer (js "ed25519") = .ok (.str K)) (hverified : Verified P view sig (.str K)) : PeerAtHome P nodes K peer := by
  refine ⟨.of_verified hkey hverified, fun m hm => ?_⟩
  obtain ⟨pub, hpub, hfrom⟩ := hview
  obtain ⟨_, _, _, wg0, _, _, _, hwg0, rfl⟩ := peerPubJson_ok hpub
  obtain ⟨w, hsigned, heq⟩ := hunforged _ _ _ view m rfl (hcheck _ ⟨peer, _, hpeer, hkey, hm⟩) rfl
  obtain ⟨_, bytes, _, _, hbytes, _⟩ := hverified.ok
  have hown : wg0 = .str (nodes m).wg0 := hsigned.home hshape hk hwf (heq.trans hbytes) hbytes hfrom rfl
  rw [hwg0, hown]

omit [DecidableEq ι] in
theorem PeerAtHome.view {peer : Value} (h : PeerAtHome P nodes K peer) : PeerAtHome P nodes K (jsonView peer) :=
  ⟨h.key.view, fun m hm => prop_jsonView_plain (h.wg0 m hm) trivial⟩

omit [DecidableEq ι] in
theorem PeerAtHome.ne_undefined {peer : Value} (h : PeerAtHome P nodes K peer) : peer ≠ .undefined := by
  rintro rfl
  cases h.key.own

omit [DecidableEq ι] in
theorem AtHome.reloaded {b : FriendBook} (h : AtHome P nodes b) : AtHome P nodes b.reloaded := by
  refine ⟨fun K p hget => ?_, fun K r hget => ?_⟩
  · obtain ⟨p₀, hp₀, rfl⟩ := OrdMap.get_mapVal_eq_some.mp hget
    obtain ⟨token, peer, htoken, hpeer, hhome⟩ := h.pending K p₀ hp₀
    have hne : token ≠ .undefined := by
      rintro rfl
      cases hpeer
    exact ⟨jsonView token, jsonView peer, prop_jsonView htoken hne, prop_jsonView hpeer hhome.ne_undefined, hhome.view⟩
  · obtain ⟨r₀, hr₀, rfl⟩ := OrdMap.get_mapVal_eq_some.mp hget
    obtain ⟨peer, hpeer, hhome⟩ := h.friends K r₀ hr₀
    exact ⟨jsonView peer, prop_jsonView hpeer hhome.ne_undefined, hhome.view⟩

omit [DecidableEq ι] in
/-- **A commit keeps the nodes at home.** -/
theorem AtHome.commit {c : BookCall P} {seen b b' : FriendBook} {r : Except Exn Value}
    (h : Commit P (nodes n) c.1 seen b r b') (hunforged : Unforged P nodes (n, .call (.finish c seen b r)))
    (hseen : AtHome P nodes seen) (hb : AtHome P nodes b) : AtHome P nodes b' := by
  obtain ⟨c, hc⟩ := c
  cases h with
  | issueToken minted => exact { hb with }
  | @receive token peer nonce key now _ _ verified hnonce unused hkey other =>
      obtain ⟨hpeer, _, view, sig, pub, hview, _, hpub, hverified⟩ := verifyToken_ok verified
      obtain rfl := Except.ok.inj (hkey.symm.trans hpub)
      obtain ⟨_, peer', pub, _, _, _, _, hpeer', hpub, _, _, _, rfl⟩ := tokenSignable_ok hview
      obtain rfl := Except.ok.inj (hpeer.symm.trans hpeer')
      -- the token verified, so a node whose key it is has signed its own address
      have hhome := hunforged.peer (fun pk hpk => .receive (.mk rfl) hpk hview) (tokenSignable_shaped hview) (.inl rfl)
        (tokenSignable_wf hc hview) hpeer ⟨_, hpub, rfl⟩ hkey hverified
      exact { hb with pending := OrdMap.forall_set hb.pending ⟨token, peer, rfl, hpeer, hhome⟩ }
  | @accept giver _ _ p token nonce peer now _ _ hp htoken fresh sealed hnonce hpeer =>
      obtain ⟨token', peer', htoken', hpeer', hhome⟩ := hseen.pending _ _ hp
      obtain rfl := Except.ok.inj (htoken.symm.trans htoken')
      obtain rfl := Except.ok.inj (hpeer.symm.trans hpeer')
      exact ⟨OrdMap.forall_delete hb.pending, OrdMap.forall_set hb.friends ⟨peer, rfl, hhome⟩⟩
  | @confirm _ ref key accept _ peer now _ _ opened href hoffer unused fresh hpeer hkey =>
      obtain ⟨_, view, sig, peer', pub, hview, _, hpeer', hpub, hverified⟩ := openAccept_ok opened
      obtain rfl := Except.ok.inj (hpeer.symm.trans hpeer')
      obtain rfl := Except.ok.inj (hkey.symm.trans hpub)
      obtain ⟨_, peer', pub, _, _, _, hpeer', hpub, _, _, rfl⟩ := acceptSignable_ok hview
      obtain rfl := Except.ok.inj (hpeer.symm.trans hpeer')
      have hhome := hunforged.peer (fun pk hpk => .confirm (.mk rfl) opened hpk hview) (acceptSignable_shaped hview) (.inr rfl)
        (acceptSignable_wf (openAccept_wf opened) hview) hpeer ⟨_, hpub, rfl⟩ hkey hverified
      exact { hb with friends := OrdMap.forall_set hb.friends ⟨peer, rfl, hhome⟩ }
  | revoke peer => exact { hb with friends := OrdMap.forall_delete hb.friends }
  | issueRevokeNone hrec => exact hb
  | issueRevoke hrec signed => exact { hb with friends := OrdMap.forall_delete hb.friends }
  | receiveRevoke shape htarget hpeer hrec hnonce unused verified hat hsince current =>
      exact { hb with friends := OrdMap.forall_delete hb.friends }

omit [DecidableEq ι] in
/-- **One step** of a node, a restart included. -/
theorem step_home {p p' : BookPool P} {e : LifeEvent P} (hinv : LifeInv P (nodes n) p) (h : LifeStep P (nodes n) p e p')
    (hunforged : Unforged P nodes (n, e))
    (hp : Holds (BookCall.task P (nodes n)) (fun _ => True) (AtHome P nodes) p) :
    Holds (BookCall.task P (nodes n)) (fun _ => True) (AtHome P nodes) p' := by
  cases h with
  | reload running hload =>
      rw [reload_eq hinv.book.wf] at hload
      obtain rfl := Except.ok.inj hload
      exact ⟨hp.state.reloaded, List.forall_mem_nil _⟩
  | @call _ _ l hstep =>
      refine hstep.holds (fun c seen b b' x o hlabel hrest _ hseen hb hs => ?_) l.starts_true hp
      have hstage := stage_of_rest (rest_val hrest)
      cases o with
      | suspended y =>
          obtain ⟨rfl, _⟩ := hstage.suspend hs
          exact hb
      | done r =>
          rcases hstage.done hs with ⟨_, _, rfl⟩ | hc
          · exact hb
          · exact .commit hc (hlabel r rfl ▸ hunforged) hseen hb

/-- In every run, every book has the nodes at home. -/
theorem lives_home {tr : List (Event P ι)} {w : ι → BookPool P} (run : Run (LivesStep P nodes) (unused P) tr w)
    (hunforged : ∀ e ∈ tr, Unforged P nodes e) (n : ι) : AtHome P nodes (w n).state := by
  have hall := run.members_along
    (I := fun tr n p => LifeInv P (nodes n) p ∧ ((∀ e ∈ tr, Unforged P nodes e) →
      Holds (BookCall.task P (nodes n)) (fun _ => True) (AtHome P nodes) p)) ?_ ?_ ?_ n
  · exact (hall.2 hunforged).state
  · exact fun k => ⟨lives_inv .nil k, fun _ => ⟨.empty, List.forall_mem_nil _⟩⟩
  · exact fun tr e k p hp => ⟨hp.1, fun htr => hp.2 (List.forall_mem_append.mp htr).1⟩
  · intro tr w k l p' _ hp hstep
    refine ⟨hstep.inv hp.1, fun htr => ?_⟩
    obtain ⟨hinit, hlast⟩ := List.forall_mem_append.mp htr
    exact step_home hp.1 hstep (hlast _ (List.mem_singleton_self _)) (hp.2 hinit)

/-- **Nobody is served in a node's name from elsewhere.** Over any run of the nodes, with bodies from anyone and restarts: if
    a node takes a caller for the friend with another node's key, the caller has that node's address. -/
theorem served_at_home (P : Platform) (nodes : ι → Self) {tr : List (Event P ι)} {w : ι → BookPool P}
    (run : Run (LivesStep P nodes) (unused P) tr w) (hunforged : ∀ e ∈ tr, Unforged P nodes e) {n m : ι} {addr K : JsString}
    (hserved : shareFriend (nodes n) addr (w n).state = .ok (some (.str K)))
    (hkey : fromB64 P (.str K) = .ok (nodes m).id.edPublic) : OnMesh addr (nodes m).wg0 := by
  obtain ⟨found, hfound, hiff⟩ := @shareFriend_iff P (nodes n) _ addr (lives_inv run n).book.keyed
  obtain rfl := Except.ok.inj (hserved.symm.trans hfound)
  obtain ⟨K', ip, hK, hmesh, _, ⟨record, hrecord, hwg0⟩, _⟩ := (hiff _).mp rfl
  obtain rfl := Value.str.inj hK
  obtain ⟨peer, hpeer, hhome⟩ := (lives_home run hunforged n).friends _ _ hrecord
  obtain ⟨peer', hpeer', hip⟩ := bind_ok.mp hwg0
  obtain rfl := Except.ok.inj (hpeer.symm.trans hpeer')
  obtain rfl := Value.str.inj (Except.ok.inj ((hhome.wg0 m hkey).symm.trans hip))
  exact hmesh

/-- A call that runs with nothing else going on. -/
theorem called (n : ι) (c : Call) (wf : c.WF P.toEngine) {s₀ w : ι → BookPool P} {tr : List (Event P ι)}
    {b b' : FriendBook} {r : Except Exn Value} (run : Run (LivesStep P nodes) s₀ tr w) (hw : w n = ⟨b, []⟩)
    (h : Commit P (nodes n) c b b r b') (htr : ∀ e ∈ tr, Unforged P nodes e)
    (hfinish : Unforged P nodes (n, .call (.finish ⟨c, wf⟩ b b r))) :
    ∃ tr' w', Run (LivesStep P nodes) s₀ tr' w' ∧ w' n = ⟨b', []⟩ ∧ ∀ e ∈ tr', Unforged P nodes e := by
  obtain ⟨ls, w', hls, run', hat, _⟩ := Removal.run_called n c wf run hw h
  refine ⟨_, w', run', hat, ?_⟩
  simp only [List.forall_mem_append, List.forall_mem_singleton, List.forall_mem_map]
  refine ⟨htr, fun l hl => ?_, hfinish⟩
  -- a call that has not returned has verified nothing
  intro k l' pk view m heq hcheck
  obtain ⟨rfl, hlabel⟩ := Prod.mk.inj heq
  obtain rfl := LifeEvent.call.inj hlabel
  cases hcheck with
  | receive h => rcases hls l hl with rfl | rfl <;> cases h
  | confirm h => rcases hls l hl with rfl | rfl <;> cases h

end Home

namespace Symbolic

open Js Async Home Value

/-- Node 2, at another address than node 1. -/
def neighbour : Self := ⟨identity 2, js "node", js "10.42.0.2"⟩

def neighbours : Bool → Self
  | true => node 1
  | false => neighbour

theorem invite_received_next : Commit platform neighbour (.receive (invite 1 [7]) epoch) .empty .empty
    (.ok (peerPubOf platform (node 1))) requested :=
  .receive invite_verified invite_nonce (by decide) rfl (by decide)

theorem invite_accepted_next : ∃ blob, Commit platform neighbour (.accept (toHex [1]) [] epoch) requested requested
    (.ok (.str blob)) befriended := by
  obtain ⟨hpeer, hfresh, _⟩ := verifyToken_ok invite_verified
  obtain ⟨blob, hblob⟩ := makeAccept_mints codec neighbour [] epoch invite_nonce hpeer fun _ => rfl
  exact ⟨blob, .accept requested_pending rfl hfresh hblob invite_nonce hpeer⟩

theorem befriended_shares : shareFriend neighbour (js "::ffff:10.42.0.1") befriended = .ok (some (.str (toHex [1]))) := by
  decide +kernel

/-- Once it has accepted node 1's token, node 2 serves node 1's address as node 1. -/
theorem neighbour_served : ∃ tr p, Run (LifeStep platform neighbour) ⟨.empty, []⟩ tr p ∧
    shareFriend neighbour (js "::ffff:10.42.0.1") p.state = .ok (some (.str (toHex [1]))) ∧
    ∃ found, shareFriend neighbour (js "::ffff:10.42.0.1") p.state = .ok found ∧ ∀ key, found = some key ↔
      ∃ K ip, key = .str K ∧ OnMesh (js "::ffff:10.42.0.1") ip ∧ ip ≠ neighbour.wg0 ∧ Claims p.state K ip ∧
        ∀ K', Claims p.state K' ip → K' = K := by
  obtain ⟨tr, run⟩ := life_alone .nil (show Call.WF _ (.receive _ _) from invite_wf) invite_received_next
  obtain ⟨blob, accepted⟩ := invite_accepted_next
  obtain ⟨tr', run'⟩ := life_alone run (show Call.WF _ (.accept ..) from trivial) accepted
  exact ⟨tr', _, run', befriended_shares, served_iff platform neighbour run' (js "::ffff:10.42.0.1")⟩

/-- Node 1 has signed the token that node 2 has received. -/
theorem invite_unforged (wf : Call.WF platform.toEngine (.receive (invite 1 [7]) epoch)) : Unforged platform neighbours
    (false, .call (.finish ⟨.receive (invite 1 [7]) epoch, wf⟩ .empty .empty (.ok (peerPubOf platform (node 1))))) := by
  intro n l pk view m heq hcheck hm
  cases heq
  cases hcheck with
  | confirm h =>
      cases h with
      | mk hc => cases hc
  | receive h hkey hview =>
      cases h with
      | mk hc =>
          cases hc
          obtain rfl := node_key (makeToken_from (invite_minted 1 [7])) hkey
          cases m with
          | false => exact absurd hm (by decide)
          | true => exact ⟨view, .token (invite_minted 1 [7]) hview, rfl⟩

/-- Node 2 serves a caller as node 1 at node 1's address. -/
theorem neighbour_at_home : shareFriend neighbour (js "::ffff:10.42.0.1") befriended = .ok (some (.str (toHex [1]))) ∧
    OnMesh (js "::ffff:10.42.0.1") (node 1).wg0 := by
  have fresh : Run (Removal.LivesStep platform neighbours) (Removal.unused platform) [] (Removal.unused platform) := .nil
  obtain ⟨_, _, run₁, at₁, ok₁⟩ := called false (.receive (invite 1 [7]) epoch) invite_wf fresh rfl invite_received_next
    (List.forall_mem_nil _) (invite_unforged invite_wf)
  obtain ⟨blob, accepted⟩ := invite_accepted_next
  obtain ⟨_, w, run₂, at₂, ok₂⟩ := called false (.accept (toHex [1]) [] epoch) trivial run₁ at₁ accepted ok₁ fun _ _ _ _ _ heq hcheck => by
    cases heq
    cases hcheck with
    | receive h =>
        cases h with
        | mk hc => cases hc
    | confirm h =>
        cases h with
        | mk hc => cases hc
  have hserved : shareFriend (neighbours false) (js "::ffff:10.42.0.1") (w false).state = .ok (some (.str (toHex [1]))) := by
    rw [at₂]
    exact befriended_shares
  exact ⟨befriended_shares, @served_at_home _ _ platform neighbours _ w run₂ ok₂ false true _ _ hserved (fromB64_toHex [1])⟩

end Symbolic

end Island
end VpnPi
