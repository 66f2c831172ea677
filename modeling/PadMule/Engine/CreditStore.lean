import PadMule.Files.ClientsMet
import PadMule.Lib.FileMap
import PadMule.Lib.Runs

/-
  `mule-engine/src/credit_store.rs`: the running credit account.

  The store is a `HashMap`, and `save` writes its values in the map's own order, so an
  operation that saves carries the order. A restart is `save` followed by `load`: it drops the
  records without a transfer and the expired ones, and keeps every other one as it is
  (`get_reload_iff`). A key that is bound to a record therefore stays as long as the record
  itself comes through every restart.
-/

namespace PadMule.Engine

open PadMule.Proto PadMule.Files FileMap

/-- `u64::saturating_add` -/
def saturatingAdd (a n : UInt64) : UInt64 :=
  if a.toNat + n.toNat < 2 ^ 64 then a + n else .ofNat (2 ^ 64 - 1)

theorem le_saturatingAdd (a n : UInt64) : a.toNat ≤ (saturatingAdd a n).toNat := by
  have ha := a.toNat_lt
  unfold saturatingAdd
  split_ifs with h
  · rw [UInt64.toNat_add, Nat.mod_eq_of_lt h]
    exact Nat.le_add_right _ _
  · rw [UInt64.toNat_ofNat']
    omega

structure CreditStore where
  inner : Dir Hash16 CreditEntry
  cryptoAvailable : Bool

namespace CreditStore

def empty (cryptoAvailable : Bool) : CreditStore := ⟨[], cryptoAvailable⟩

def load (bytes : Bytes) (now : UInt32) (cryptoAvailable : Bool) : CreditStore :=
  match readClientsMet bytes with
  | .ok m =>
    ⟨(m.entries.filter (!·.isExpired now)).foldl (fun d e => write d e.userHash e) [],
      cryptoAvailable⟩
  | .error _ => empty cryptoAvailable

/-- The map's values, in an order of its own. -/
def save (order : List CreditEntry) : Bytes := writeClientsMet ⟨order⟩

def values (s : CreditStore) : List CreditEntry := s.inner.map Prod.snd

def withEntry (s : CreditStore) (userhash : Hash16) (now : UInt32)
    (f : CreditEntry → CreditEntry) : CreditStore :=
  let e := (get s.inner userhash).getD (.new userhash now)
  { s with inner := write s.inner userhash (f { e with lastSeen := now }) }

def touch (s : CreditStore) (userhash : Hash16) (now : UInt32) : CreditStore :=
  s.withEntry userhash now id

def addUploaded (s : CreditStore) (userhash : Hash16) (n : UInt64) (now : UInt32) : CreditStore :=
  s.withEntry userhash now fun e => { e with uploaded := saturatingAdd e.uploaded n }

def addDownloaded (s : CreditStore) (userhash : Hash16) (n : UInt64) (now : UInt32) :
    CreditStore :=
  s.withEntry userhash now fun e => { e with downloaded := saturatingAdd e.downloaded n }

/-- `secure_ident[..len].copy_from_slice(&pubkey[..len])`, cut to the blob's size. -/
def copyKey (blob : Digest Files.MAX_PUBKEY_SIZE) (pubkey : Bytes) : Digest Files.MAX_PUBKEY_SIZE :=
  ⟨pubkey.take Files.MAX_PUBKEY_SIZE ++ blob.bytes.drop (min pubkey.length Files.MAX_PUBKEY_SIZE), by
    have := blob.len
    simp only [List.length_append, List.length_take, List.length_drop]
    omega⟩

/-- What `bind_verified` does to a record: a first key wipes credit earned without one. -/
def bindKey (pubkey : Bytes) (e : CreditEntry) : CreditEntry :=
  if e.keySize = 0 then
    let e := { e with
      secureIdent := copyKey e.secureIdent pubkey
      keySize := .ofNat (min pubkey.length Files.MAX_PUBKEY_SIZE) }
    if 0 < e.downloaded then { e with uploaded := 1, downloaded := 1 } else e
  else e

def bindVerified (s : CreditStore) (userhash : Hash16) (pubkey : Bytes) (now : UInt32) :
    CreditStore :=
  s.withEntry userhash now (bindKey pubkey)

/-- The key of a record, if there is one. -/
def keyOf (e : CreditEntry) : Option Bytes :=
  if 0 < e.keySize.toNat then
    some (e.secureIdent.bytes.take (min e.keySize.toNat Files.MAX_PUBKEY_SIZE))
  else none

def storedKey (s : CreditStore) (userhash : Hash16) : Option Bytes :=
  (get s.inner userhash).bind keyOf

def totalsOf (e : CreditEntry) : Nat × Nat := (e.uploaded.toNat, e.downloaded.toNat)

/-- What is on record as uploaded and downloaded. -/
def totals (s : CreditStore) (userhash : Hash16) : Nat × Nat :=
  ((get s.inner userhash).map totalsOf).getD (0, 0)

end CreditStore

inductive CreditOp where
  | touch (userhash : Hash16) (now : UInt32)
  | addUploaded (userhash : Hash16) (n : UInt64) (now : UInt32)
  | addDownloaded (userhash : Hash16) (n : UInt64) (now : UInt32)
  | bindVerified (userhash : Hash16) (pubkey : Bytes) (now : UInt32)
  | reload (order : List CreditEntry) (now : UInt32)

namespace CreditStore

def step (s : CreditStore) : CreditOp → Option CreditStore
  | .touch userhash now => some (s.touch userhash now)
  | .addUploaded userhash n now => some (s.addUploaded userhash n now)
  | .addDownloaded userhash n now => some (s.addDownloaded userhash n now)
  | .bindVerified userhash pubkey now => some (s.bindVerified userhash pubkey now)
  | .reload order now =>
    if order.isPerm s.values then some (load (save order) now s.cryptoAvailable) else none

/-! ## What stays true of the map -/

/-- Each record stands under its own hash, and once; no key is longer than the blob. -/
structure Ok (s : CreditStore) : Prop where
  once : (names s.inner).Nodup
  hash : ∀ p ∈ s.inner, p.2.userHash = p.1
  key : ∀ p ∈ s.inner, p.2.keySize.toNat ≤ Files.MAX_PUBKEY_SIZE

theorem ok_empty (cryptoAvailable : Bool) : Ok (empty cryptoAvailable) :=
  ⟨List.nodup_nil, fun _ h => absurd h List.not_mem_nil, fun _ h => absurd h List.not_mem_nil⟩

variable {s s' : CreditStore}

theorem Ok.write (h : Ok s) {k : Hash16} {e : CreditEntry} (hhash : e.userHash = k)
    (hkey : e.keySize.toNat ≤ Files.MAX_PUBKEY_SIZE) :
    Ok { s with inner := FileMap.write s.inner k e } := by
  refine ⟨nodup_write h.once k e, fun p hp => ?_, fun p hp => ?_⟩
  · rcases List.mem_cons.mp hp with rfl | hp
    · exact hhash
    · exact h.hash p (List.mem_of_mem_filter hp)
  · rcases List.mem_cons.mp hp with rfl | hp
    · exact hkey
    · exact h.key p (List.mem_of_mem_filter hp)

theorem Ok.get_iff (h : Ok s) {k : Hash16} {e : CreditEntry} :
    get s.inner k = some e ↔ e ∈ s.values ∧ e.userHash = k := by
  rw [get_eq_some_iff h.once]
  constructor
  · exact fun hmem => ⟨List.mem_map_of_mem hmem, h.hash _ hmem⟩
  · rintro ⟨hmem, rfl⟩
    obtain ⟨p, hp, rfl⟩ := List.mem_map.mp hmem
    rw [h.hash p hp]
    exact hp

theorem Ok.nodup_values (h : Ok s) : (s.values.map CreditEntry.userHash).Nodup := by
  have hnames : s.values.map CreditEntry.userHash = names s.inner := by
    rw [values, List.map_map]
    exact List.map_congr_left fun p hp => h.hash p hp
  exact hnames ▸ h.once

/-- The record `withEntry` works on. -/
theorem Ok.entry (h : Ok s) (k : Hash16) (now : UInt32) :
    ((get s.inner k).getD (.new k now)).userHash = k ∧
      ((get s.inner k).getD (.new k now)).keySize.toNat ≤ Files.MAX_PUBKEY_SIZE := by
  cases hget : get s.inner k with
  | none => exact ⟨rfl, Nat.zero_le _⟩
  | some e =>
    have hmem := (get_eq_some_iff h.once).mp hget
    exact ⟨h.hash _ hmem, h.key _ hmem⟩

theorem Ok.withEntry (h : Ok s) (k : Hash16) (now : UInt32) {f : CreditEntry → CreditEntry}
    (hhash : ∀ e, (f e).userHash = e.userHash)
    (hkey : ∀ e, e.keySize.toNat ≤ Files.MAX_PUBKEY_SIZE →
      (f e).keySize.toNat ≤ Files.MAX_PUBKEY_SIZE) : Ok (s.withEntry k now f) := by
  obtain ⟨hk, hle⟩ := h.entry k now
  exact h.write ((hhash _).trans hk) (hkey _ hle)

theorem keySize_bindKey (pubkey : Bytes) {e : CreditEntry}
    (h : e.keySize.toNat ≤ Files.MAX_PUBKEY_SIZE) :
    (bindKey pubkey e).keySize.toNat ≤ Files.MAX_PUBKEY_SIZE := by
  have hlt : min pubkey.length Files.MAX_PUBKEY_SIZE ≤ 80 := Nat.min_le_right _ _
  have hto : (UInt8.ofNat (min pubkey.length Files.MAX_PUBKEY_SIZE)).toNat =
      min pubkey.length Files.MAX_PUBKEY_SIZE :=
    UInt8.toNat_ofNat_of_lt' (Nat.lt_of_le_of_lt hlt (by decide))
  simp only [bindKey]
  split_ifs
  · exact hto.trans_le hlt
  · exact hto.trans_le hlt
  · exact h

theorem userHash_bindKey (pubkey : Bytes) (e : CreditEntry) :
    (bindKey pubkey e).userHash = e.userHash := by
  simp only [bindKey]
  split_ifs <;> rfl

/-! ## What a restart keeps -/

/-- What `load` makes of a list of records. -/
def collect (entries : List CreditEntry) (cryptoAvailable : Bool) : CreditStore :=
  ⟨entries.foldl (fun d e => write d e.userHash e) [], cryptoAvailable⟩

theorem ok_collect (entries : List CreditEntry) (cryptoAvailable : Bool)
    (hkey : ∀ e ∈ entries, e.keySize.toNat ≤ Files.MAX_PUBKEY_SIZE) :
    Ok (collect entries cryptoAvailable) := by
  suffices h : ∀ d, Ok ⟨d, cryptoAvailable⟩ →
      Ok ⟨entries.foldl (fun d e => FileMap.write d e.userHash e) d, cryptoAvailable⟩ from
    h [] (ok_empty cryptoAvailable)
  induction entries with
  | nil => exact fun d hd => hd
  | cons e entries ih =>
    obtain ⟨he, hrest⟩ := List.forall_mem_cons.mp hkey
    exact fun d hd => ih hrest _ (hd.write rfl he)

theorem get_collect {entries : List CreditEntry} (hn : (entries.map CreditEntry.userHash).Nodup)
    (d : Dir Hash16 CreditEntry) (k : Hash16) :
    get (entries.foldl (fun d e => write d e.userHash e) d) k =
      ((entries.find? (·.userHash = k)).or (get d k)) := by
  induction entries generalizing d with
  | nil => rfl
  | cons e entries ih =>
    obtain ⟨hnot, hrest⟩ := List.nodup_cons.mp hn
    rw [List.foldl_cons, ih hrest, get_write, List.find?_cons]
    by_cases hk : e.userHash = k
    · have hnone : entries.find? (·.userHash = k) = none := by
        refine List.find?_eq_none.mpr fun f hf hfk => hnot ?_
        rw [hk, ← of_decide_eq_true hfk]
        exact List.mem_map_of_mem hf
      simp [hk, hnone]
    · simp [hk, Ne.symm hk]

theorem find_iff {l : List CreditEntry} (hn : (l.map CreditEntry.userHash).Nodup) {k : Hash16}
    {e : CreditEntry} : l.find? (·.userHash = k) = some e ↔ e ∈ l ∧ e.userHash = k := by
  constructor
  · exact fun h => ⟨List.mem_of_find?_eq_some h, by simpa using List.find?_some h⟩
  · rintro ⟨he, rfl⟩
    cases hfind : l.find? (·.userHash = e.userHash) with
    | none => exact absurd (decide_eq_true rfl) (List.find?_eq_none.mp hfind e he)
    | some f =>
      have hf := List.mem_of_find?_eq_some hfind
      have hhash : f.userHash = e.userHash := by simpa using List.find?_some hfind
      exact congrArg some (List.inj_on_of_nodup_map hn hf he hhash)

/-- The records a `save` writes are as many as the u32 count can say. -/
def Countable (s : CreditStore) : Prop := (s.values.filter (!·.isEmpty)).length < 2 ^ 32

/-- A restart at `now` keeps the record. -/
def Survives (now : UInt32) (e : CreditEntry) : Prop := e.isEmpty = false ∧ e.isExpired now = false

theorem load_save_eq (h : Ok s) (hcount : s.Countable) {order : List CreditEntry}
    (hperm : order.Perm s.values) (now : UInt32) (cryptoAvailable : Bool) :
    load (save order) now cryptoAvailable =
      collect ((order.filter (!·.isEmpty)).filter (!·.isExpired now)) cryptoAvailable := by
  have hkey : ∀ e ∈ order, e.keySize.toNat ≤ Files.MAX_PUBKEY_SIZE := by
    intro e he
    obtain ⟨p, hp, rfl⟩ := List.mem_map.mp (hperm.mem_iff.mp he)
    exact h.key p hp
  have hlen : (order.filter (!·.isEmpty)).length < 2 ^ 32 :=
    (hperm.filter _).length_eq.trans_lt hcount
  rw [load, save, readClientsMet_writeClientsMet hkey hlen]
  rfl

/-- A restart keeps exactly the surviving records, and each as it is. -/
theorem get_reload_iff (h : Ok s) (hcount : s.Countable) {order : List CreditEntry}
    (hperm : order.Perm s.values) (now : UInt32) (cryptoAvailable : Bool) (k : Hash16)
    (e : CreditEntry) :
    get (load (save order) now cryptoAvailable).inner k = some e ↔
      get s.inner k = some e ∧ Survives now e := by
  have hn : (((order.filter (!·.isEmpty)).filter (!·.isExpired now)).map
      CreditEntry.userHash).Nodup :=
    ((List.filter_sublist.trans List.filter_sublist).map _).nodup
      ((hperm.map _).nodup_iff.mpr h.nodup_values)
  rw [load_save_eq h hcount hperm, collect, get_collect hn, h.get_iff, ← hperm.mem_iff]
  change (((order.filter (!·.isEmpty)).filter (!·.isExpired now)).find? (·.userHash = k)).or none =
    some e ↔ _
  rw [Option.or_none, find_iff hn]
  simp only [List.mem_filter, Survives, Bool.not_eq_true']
  tauto

/-- Whatever the bytes, what is loaded is in order. -/
theorem ok_load (bytes : Bytes) (now : UInt32) (cryptoAvailable : Bool) :
    Ok (load bytes now cryptoAvailable) := by
  unfold load
  split
  · rename_i m hread
    exact ok_collect _ _ fun e he => keySize_of_readClientsMet hread e (List.mem_of_mem_filter he)
  · exact ok_empty cryptoAvailable

theorem Ok.step (h : Ok s) {op : CreditOp} (hstep : s.step op = some s') : Ok s' := by
  cases op with
  | touch k now =>
    cases hstep
    exact h.withEntry k now (fun _ => rfl) fun _ hle => hle
  | addUploaded k n now =>
    cases hstep
    exact h.withEntry k now (fun _ => rfl) fun _ hle => hle
  | addDownloaded k n now =>
    cases hstep
    exact h.withEntry k now (fun _ => rfl) fun _ hle => hle
  | bindVerified k pubkey now =>
    cases hstep
    exact h.withEntry k now (userHash_bindKey pubkey) fun _ hle => keySize_bindKey pubkey hle
  | reload order now =>
    simp only [CreditStore.step] at hstep
    split_ifs at hstep
    cases hstep
    exact ok_load _ _ _

/-! ## Keys and totals -/

theorem get_withEntry (s : CreditStore) (k j : Hash16) (now : UInt32)
    (f : CreditEntry → CreditEntry) :
    get (s.withEntry k now f).inner j =
      if j = k then some (f { (get s.inner k).getD (.new k now) with lastSeen := now })
      else get s.inner j :=
  get_write ..

/-- An operation on a record that leaves its key alone leaves every stored key alone. -/
theorem storedKey_withEntry (s : CreditStore) (k j : Hash16) (now : UInt32)
    {f : CreditEntry → CreditEntry} (hkey : ∀ e, keyOf e = none ∨ keyOf (f e) = keyOf e)
    {key : Bytes} (h : s.storedKey j = some key) :
    (s.withEntry k now f).storedKey j = some key := by
  rw [storedKey, get_withEntry]
  split_ifs with hj
  · subst hj
    obtain ⟨e, he, hek⟩ := Option.bind_eq_some_iff.mp h
    have hseen : keyOf { e with lastSeen := now } = some key := hek
    rw [he, Option.getD_some, Option.bind_some]
    exact ((hkey _).resolve_left (by rw [hseen]; simp)).trans hseen
  · exact h

theorem keyOf_bindKey (pubkey : Bytes) (e : CreditEntry) :
    keyOf e = none ∨ keyOf (bindKey pubkey e) = keyOf e := by
  by_cases hzero : e.keySize = 0
  · left
    simp [keyOf, hzero]
  · right
    rw [bindKey, if_neg hzero]

/-- A restart finds the record of `k` with a transfer on it, not expired, among at most as many
    others as the file can count. -/
def Kept (k : Hash16) (s : CreditStore) : CreditOp → Prop
  | .reload _ now => s.Countable ∧ ∀ e, get s.inner k = some e → Survives now e
  | _ => True

theorem storedKey_step (h : Ok s) {op : CreditOp} (hstep : s.step op = some s') {k : Hash16}
    (hkept : Kept k s op) {key : Bytes} (hkey : s.storedKey k = some key) :
    s'.storedKey k = some key := by
  cases op with
  | touch j now =>
    cases hstep
    exact storedKey_withEntry s j k now (fun _ => .inr rfl) hkey
  | addUploaded j n now =>
    cases hstep
    exact storedKey_withEntry s j k now
      (f := fun e => { e with uploaded := saturatingAdd e.uploaded n }) (fun _ => .inr rfl) hkey
  | addDownloaded j n now =>
    cases hstep
    exact storedKey_withEntry s j k now
      (f := fun e => { e with downloaded := saturatingAdd e.downloaded n }) (fun _ => .inr rfl) hkey
  | bindVerified j pubkey now =>
    cases hstep
    exact storedKey_withEntry s j k now (keyOf_bindKey pubkey) hkey
  | reload order now =>
    obtain ⟨hcount, hsurvives⟩ := hkept
    obtain ⟨e, he, hek⟩ := Option.bind_eq_some_iff.mp hkey
    simp only [step] at hstep
    split_ifs at hstep with hperm
    cases hstep
    have hreload := (get_reload_iff h hcount (List.isPerm_iff.mp hperm) now s.cryptoAvailable k e).mpr
      ⟨he, hsurvives e he⟩
    rw [storedKey, hreload]
    exact hek

theorem storedKey_run (h : Ok s) {ops : List CreditOp} (hrun : Runs.run step s ops = some s')
    {k : Hash16} (hkept : Runs.Throughout step (Kept k) s ops) {key : Bytes}
    (hkey : s.storedKey k = some key) : s'.storedKey k = some key := by
  induction ops generalizing s with
  | nil =>
    cases hrun
    exact hkey
  | cons op ops ih =>
    obtain ⟨t, hstep, hrun⟩ := Runs.run_cons hrun
    exact ih (h.step hstep) hrun (hkept.2 t hstep) (storedKey_step h hstep hkept.1 hkey)

/-- A first key for a record that has given us something: the totals are wiped. -/
def Wipes (k : Hash16) (s : CreditStore) : CreditOp → Prop
  | .bindVerified j _ _ => j = k ∧ ∃ e, get s.inner k = some e ∧ e.keySize = 0 ∧ 0 < e.downloaded
  | _ => False

/-- The record of `k` is not dropped as expired. -/
def Unexpired (k : Hash16) (s : CreditStore) : CreditOp → Prop
  | .reload _ now => s.Countable ∧ ∀ e, get s.inner k = some e → e.isExpired now = false
  | _ => True

theorem totals_withEntry (s : CreditStore) (k j : Hash16) (now : UInt32)
    {f : CreditEntry → CreditEntry} (hf : ∀ e, j = k → (get s.inner k).getD (.new k now) = e →
      totalsOf e ≤ totalsOf (f { e with lastSeen := now })) :
    s.totals j ≤ (s.withEntry k now f).totals j := by
  rw [totals, totals, get_withEntry]
  split_ifs with hj
  · have hle := hf _ hj rfl
    subst hj
    cases hget : get s.inner j with
    | none =>
      exact ⟨Nat.zero_le _, Nat.zero_le _⟩
    | some e =>
      rw [hget] at hle
      exact hle
  · exact le_rfl

/-- A restart keeps the totals of a record that is not expired. -/
theorem totals_reload (h : Ok s) {order : List CreditEntry} {now : UInt32}
    (hstep : s.step (.reload order now) = some s') {k : Hash16}
    (hkept : Unexpired k s (.reload order now)) : s'.totals k = s.totals k := by
  obtain ⟨hcount, hfresh⟩ := hkept
  simp only [step] at hstep
  split_ifs at hstep with hperm
  cases hstep
  have hiff := get_reload_iff h hcount (List.isPerm_iff.mp hperm) now s.cryptoAvailable k
  cases hget : get (load (save order) now s.cryptoAvailable).inner k with
  | some e => rw [totals, totals, hget, ((hiff e).mp hget).1]
  | none =>
    rw [totals, totals, hget]
    cases hold : get s.inner k with
    | none => rfl
    | some e =>
      -- only a record without a transfer is dropped here, and it has nothing to lose
      have hempty : e.isEmpty = true := by
        by_contra hne
        have hsome := (hiff e).mpr ⟨hold, Bool.not_eq_true _ ▸ hne, hfresh e hold⟩
        rw [hget] at hsome
        cases hsome
      obtain ⟨hup, hdown⟩ := of_decide_eq_true hempty
      simp [totalsOf, hup, hdown]

theorem totals_step (h : Ok s) {op : CreditOp} (hstep : s.step op = some s') {k : Hash16}
    (hfresh : Unexpired k s op) (hwipe : ¬Wipes k s op) : s.totals k ≤ s'.totals k := by
  cases op with
  | touch j now =>
    cases hstep
    exact totals_withEntry s j k now fun _ _ _ => le_rfl
  | addUploaded j n now =>
    cases hstep
    exact totals_withEntry s j k now fun e _ _ => ⟨le_saturatingAdd e.uploaded n, le_rfl⟩
  | addDownloaded j n now =>
    cases hstep
    exact totals_withEntry s j k now fun e _ _ => ⟨le_rfl, le_saturatingAdd e.downloaded n⟩
  | bindVerified j pubkey now =>
    cases hstep
    refine totals_withEntry s j k now fun e hj he => ?_
    have hkeep : e.keySize = 0 → ¬0 < e.downloaded := by
      intro hzero hdown
      refine hwipe ⟨hj.symm, ?_⟩
      cases hget : get s.inner j with
      | none =>
        rw [hget] at he
        cases he
        exact absurd hdown (by simp [CreditEntry.new])
      | some f =>
        rw [hget] at he
        cases he
        exact ⟨f, hj ▸ hget, hzero, hdown⟩
    simp only [bindKey]
    split_ifs with hzero hdown
    · exact absurd hdown (hkeep hzero)
    · exact le_rfl
    · exact le_rfl
  | reload order now => exact (totals_reload h hstep hfresh).ge

/-- From any file on, a bound key stays as long as every restart finds its record with a
    transfer on it and not expired; and the totals of a record come through every restart that
    does not expire it and shrink only where a first key wipes them. -/
theorem bindings_permanent {bytes : Bytes} {now : UInt32} {cryptoAvailable : Bool}
    {ops : List CreditOp} (hreach : Runs.run step (load bytes now cryptoAvailable) ops = some s) :
    (∀ k key later s', s.storedKey k = some key → Runs.run step s later = some s' →
      Runs.Throughout step (Kept k) s later → s'.storedKey k = some key) ∧
      (∀ k order time s', s.step (.reload order time) = some s' →
        Unexpired k s (.reload order time) → s'.totals k = s.totals k) ∧
      (∀ k op s', s.step op = some s' → Unexpired k s op → ¬Wipes k s op →
        s.totals k ≤ s'.totals k) := by
  have hok : Ok s :=
    Runs.run_induct (fun _ _ _ hok hstep => Ok.step hok hstep) (ok_load _ _ _) hreach
  exact ⟨fun k key later s' hkey hrun hkept => storedKey_run hok hrun hkept hkey,
    fun k order time s' hstep hfresh => totals_reload hok hstep hfresh,
    fun k op s' hstep hfresh hwipe => totals_step hok hstep hfresh hwipe⟩

/-- The record of a peer with a two-byte key. -/
def keyedEntry (uploaded : UInt64) (lastSeen : UInt32) : CreditEntry :=
  ⟨.fill 16 1, uploaded, 0, lastSeen, 0, 2, ⟨1 :: 2 :: List.replicate 78 0, by decide⟩⟩

/-- With a byte on record the key is there after a restart. -/
theorem key_survives_restart :
    ∃ s s', Runs.run step (load [] 0 true)
        [.bindVerified (.fill 16 1) [1, 2] 5, .addUploaded (.fill 16 1) 7 6] = some s ∧
      Runs.run step s [.reload [keyedEntry 7 6] 10] = some s' ∧
      s'.storedKey (.fill 16 1) = some [1, 2] := by
  have hmoves : (Runs.run step (load [] 0 true)
      [.bindVerified (.fill 16 1) [1, 2] 5, .addUploaded (.fill 16 1) 7 6]).map (fun s =>
        ((s.values, get s.inner (.fill 16 1)), s.storedKey (.fill 16 1),
          (Runs.run step s [.reload [keyedEntry 7 6] 10]).isSome)) =
      some (([keyedEntry 7 6], some (keyedEntry 7 6)), some [1, 2], true) := by decide +kernel
  obtain ⟨s, hrun, hres⟩ := Option.map_eq_some_iff.mp hmoves
  obtain ⟨hvalues, hres⟩ := Prod.mk.inj hres
  obtain ⟨hvalues, hget⟩ := Prod.mk.inj hvalues
  obtain ⟨hkey, hsome⟩ := Prod.mk.inj hres
  obtain ⟨s', hlater⟩ := Option.isSome_iff_exists.mp hsome
  refine ⟨s, s', hrun, hlater, ?_⟩
  refine (bindings_permanent hrun).1 _ _ _ s' hkey hlater ⟨⟨?_, fun e he => ?_⟩, fun _ _ => trivial⟩
  · rw [Countable, hvalues]
    decide
  · rw [hget] at he
    cases he
    exact ⟨by decide, by decide⟩

/-- Without a transfer the record is not written, and the key is gone after the restart. -/
theorem key_lost_without_transfer :
    ∃ s s', Runs.run step (load [] 0 true) [.bindVerified (.fill 16 1) [1, 2] 5] = some s ∧
      s.storedKey (.fill 16 1) = some [1, 2] ∧
      s.step (.reload [keyedEntry 0 5] 5) = some s' ∧ s'.storedKey (.fill 16 1) = none := by
  have hmoves : (Runs.run step (load [] 0 true) [.bindVerified (.fill 16 1) [1, 2] 5]).map
      (fun s => (s.storedKey (.fill 16 1),
        (s.step (.reload [keyedEntry 0 5] 5)).map fun s' => s'.storedKey (.fill 16 1))) =
      some (some [1, 2], some none) := by decide +kernel
  obtain ⟨s, hrun, hres⟩ := Option.map_eq_some_iff.mp hmoves
  obtain ⟨hkey, hres⟩ := Prod.mk.inj hres
  obtain ⟨s', hstep, hnone⟩ := Option.map_eq_some_iff.mp hres
  exact ⟨s, s', hrun, hkey, hstep, hnone⟩

end CreditStore

end PadMule.Engine
