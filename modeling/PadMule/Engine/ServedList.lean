import PadMule.Engine.PeerSources
import PadMule.Lib.Leases
import PadMule.Lib.Runs

/-
  `mule-engine/src/share.rs`: who is listed as being served.

  A session that latches a file enters its peer's address under the file and holds a guard, which
  takes the address out again when it is dropped: when the session latches another file, after the
  new guard is there, and when the session ends or is cancelled. Nobody is listed who is not being
  served (`sourcesFor_live`). The entry is shared by all sessions of an address, so that the list
  is complete as long as no guard goes while another session of its address has one for the same
  file, and is not from then on (`served_list_iff`).
-/

namespace PadMule.Engine

open PadMule.Proto FileMap Leases

structure ServedPeer where
  addr : SocketAddr
  userHash : Option Hash16
  crypt : Option UInt8
deriving DecidableEq

/-- The peers that are listed under a file. -/
abbrev ServedPeers := Dir Hash16 (List ServedPeer)

namespace ServedPeers

def peers (g : ServedPeers) (hash : Hash16) : List ServedPeer := (get g hash).getD []

def noteServing (g : ServedPeers) (hash : Hash16) (peer : ServedPeer) : ServedPeers :=
  if (g.peers hash).any fun p => p.addr = peer.addr then g
  else write g hash (g.peers hash ++ [peer])

def stopServing (g : ServedPeers) (hash : Hash16) (addr : SocketAddr) : ServedPeers :=
  match get g hash with
  | none => g
  | some v =>
    let v := v.filter fun p => p.addr ≠ addr
    if v = [] then remove g hash else write g hash v

def servedAddrs (g : ServedPeers) (hash : Hash16) : List SocketAddr :=
  (g.peers hash).map ServedPeer.addr

/-- What another peer is told about a file: the peers that can be dialled, the asker apart. -/
def sourcesFor (g : ServedPeers) (hash : Hash16) (exclude : Option SocketAddr) : List SxSource :=
  ((g.peers hash).filter fun p => some p.addr ≠ exclude).filterMap fun p =>
    match p.addr with
    | .v6 .. => none
    | .v4 ip port =>
      if !isRoutablePublicV4 ip then none
      else if port = 0 then none
      else some ⟨swapBytes ip, port, 0, 0, p.userHash, p.crypt⟩

end ServedPeers

/-- A session of `serve_shared` with a peer address and a gate. -/
structure ServeConn where
  peer : ServedPeer
  /-- The files of its guards. One at most, but while it is replaced the new one is behind it. -/
  guards : List Hash16
  live : Bool
deriving DecidableEq

structure ServedWorld where
  served : ServedPeers
  sessions : List ServeConn

inductive ServedOp where
  | connect (peer : ServedPeer)
  /-- `register_served!` up to the new guard. -/
  | latch (i : Nat) (hash : Hash16)
  /-- The guard that was replaced is dropped. -/
  | dropOld (i : Nat)
  /-- The session returns, or its future is dropped. -/
  | leave (i : Nat)

namespace ServedWorld

def new : ServedWorld := ⟨[], []⟩

/-- A file that is latched again keeps its guard. A session is not left in the middle of a
    replacement: no await is there. -/
def step (w : ServedWorld) : ServedOp → Option ServedWorld
  | .connect peer => some { w with sessions := w.sessions ++ [⟨peer, [], true⟩] }
  | .latch i hash =>
    match w.sessions[i]? with
    | none => none
    | some s =>
      if s.live = false ∨ 1 < s.guards.length then none
      else if s.guards = [hash] then some w
      else some ⟨w.served.noteServing hash s.peer,
        w.sessions.set i { s with guards := s.guards ++ [hash] }⟩
  | .dropOld i =>
    match w.sessions[i]? with
    | none => none
    | some s =>
      match s.guards with
      | [old, hash] =>
        some ⟨w.served.stopServing old s.peer.addr, w.sessions.set i { s with guards := [hash] }⟩
      | _ => none
  | .leave i =>
    match w.sessions[i]? with
    | none => none
    | some s =>
      if s.live = false then none
      else
        match s.guards with
        | [] => some { w with sessions := w.sessions.set i { s with live := false } }
        | [hash] => some ⟨w.served.stopServing hash s.peer.addr,
            w.sessions.set i { s with guards := [], live := false }⟩
        | _ => none

def Lists (w : ServedWorld) (hash : Hash16) (addr : SocketAddr) : Prop :=
  addr ∈ w.served.servedAddrs hash

/-- A live session of the address has a guard for the file. -/
def Latched (w : ServedWorld) (hash : Hash16) (addr : SocketAddr) : Prop :=
  ∃ s ∈ w.sessions, s.live = true ∧ s.peer.addr = addr ∧ hash ∈ s.guards

/-- No other session of the address of session `i` has a guard for the file. -/
def Alone (w : ServedWorld) (i : Nat) (addr : SocketAddr) (hash : Hash16) : Prop :=
  ∀ (j : Nat) (t : ServeConn), w.sessions[j]? = some t → j ≠ i → t.peer.addr = addr →
    hash ∉ t.guards

/-- A guard that is dropped is the last one of its address for its file. -/
def DropsLast (w : ServedWorld) : ServedOp → Prop
  | .dropOld i => ∀ s old hash, w.sessions[i]? = some s → s.guards = [old, hash] →
      w.Alone i s.peer.addr old
  | .leave i => ∀ s hash, w.sessions[i]? = some s → s.live = true → s.guards = [hash] →
      w.Alone i s.peer.addr hash
  | _ => True

end ServedWorld

/-! ## The registry -/

namespace ServedPeers

variable {g : ServedPeers} {hash f : Hash16} {addr : SocketAddr}

theorem mem_servedAddrs_noteServing {peer : ServedPeer} :
    addr ∈ (g.noteServing hash peer).servedAddrs f ↔
      addr ∈ g.servedAddrs f ∨ f = hash ∧ addr = peer.addr := by
  unfold noteServing
  split_ifs with hany
  · refine ⟨.inl, fun h => h.elim id ?_⟩
    rintro ⟨rfl, rfl⟩
    obtain ⟨p, hp, heq⟩ := List.any_eq_true.mp hany
    exact List.mem_map.mpr ⟨p, hp, of_decide_eq_true heq⟩
  · unfold servedAddrs peers
    rw [get_write]
    by_cases hf : f = hash
    · subst hf
      rw [if_pos rfl, Option.getD_some, List.map_append, List.mem_append]
      simp
    · rw [if_neg hf]
      simp [hf]

theorem mem_servedAddrs_stopServing {a : SocketAddr} :
    addr ∈ (g.stopServing hash a).servedAddrs f ↔
      addr ∈ g.servedAddrs f ∧ ¬(f = hash ∧ addr = a) := by
  have hother (hf : f ≠ hash) (v : Option (List ServedPeer)) (h : v = get g f) :
      addr ∈ (v.getD []).map ServedPeer.addr ↔ addr ∈ g.servedAddrs f ∧ ¬(f = hash ∧ addr = a) := by
    subst h
    exact ⟨fun h => ⟨h, fun hboth => hf hboth.1⟩, fun h => h.1⟩
  unfold stopServing
  cases hget : get g hash with
  | none =>
    by_cases hf : f = hash
    · subst hf
      unfold servedAddrs peers
      rw [hget]
      simp
    · exact hother hf _ rfl
  | some v =>
    dsimp only
    by_cases hf : f = hash
    · subst hf
      have hkept : addr ∈ (v.filter fun p => p.addr ≠ a).map ServedPeer.addr ↔
          addr ∈ g.servedAddrs f ∧ ¬(f = f ∧ addr = a) := by
        unfold servedAddrs peers
        rw [hget, Option.getD_some]
        simp only [List.mem_map, List.mem_filter, decide_eq_true_eq, true_and]
        constructor
        · rintro ⟨p, ⟨hp, hne⟩, rfl⟩
          exact ⟨⟨p, hp, rfl⟩, hne⟩
        · rintro ⟨⟨p, hp, rfl⟩, hne⟩
          exact ⟨p, ⟨hp, hne⟩, rfl⟩
      rw [← hkept]
      split_ifs with hempty
      · rw [hempty]
        unfold servedAddrs peers
        rw [get_remove, if_pos rfl]
        rfl
      · unfold servedAddrs peers
        rw [get_write, if_pos rfl]
        rfl
    · split_ifs
      · exact hother hf _ (by rw [get_remove, if_neg hf])
      · exact hother hf _ (by rw [get_write, if_neg hf])

end ServedPeers

/-! ## The ledger behind it -/

/-- What a session holds, in the terms of the ledger. -/
def ServeConn.held (s : ServeConn) : List (Hash16 × SocketAddr) :=
  s.guards.map fun hash => (hash, s.peer.addr)

theorem ServeConn.mem_held {s : ServeConn} {hash : Hash16} {addr : SocketAddr} :
    (hash, addr) ∈ s.held ↔ hash ∈ s.guards ∧ addr = s.peer.addr := by
  unfold held
  rw [List.mem_map]
  constructor
  · rintro ⟨f, hf, heq⟩
    cases heq
    exact ⟨hf, rfl⟩
  · rintro ⟨hf, rfl⟩
    exact ⟨hash, hf, rfl⟩

namespace ServedWorld

variable {w w' : ServedWorld} {l : Ledger (Hash16 × SocketAddr)}

/-- The registry has the entries of a ledger, and the sessions hold what its holders do. -/
structure Mirrors (w : ServedWorld) (l : Ledger (Hash16 × SocketAddr)) : Prop where
  held : l.held = w.sessions.map ServeConn.held
  taken : ∀ hash addr, (hash, addr) ∈ l.taken ↔ w.Lists hash addr

/-- A session has no two guards for a file, and none once it is over. -/
def Tidy (s : ServeConn) : Prop := s.guards.Nodup ∧ (s.live = false → s.guards = [])

/-- What every run keeps. -/
structure Inv (w : ServedWorld) : Prop where
  tidy : ∀ s ∈ w.sessions, Tidy s
  ledger : ∃ l, w.Mirrors l ∧ l.Owned

theorem Mirrors.holder (h : w.Mirrors l) {i : Nat} {s : ServeConn} (hs : w.sessions[i]? = some s) :
    l.held[i]? = some s.held := by
  rw [h.held, List.getElem?_map, hs]
  rfl

/-- Holding an entry is being latched. -/
theorem Mirrors.latched_iff (h : w.Mirrors l) (htidy : ∀ s ∈ w.sessions, Tidy s) {hash : Hash16}
    {addr : SocketAddr} : w.Latched hash addr ↔ ∃ g ∈ l.held, (hash, addr) ∈ g := by
  rw [h.held]
  constructor
  · rintro ⟨s, hs, -, rfl, hhash⟩
    exact ⟨s.held, List.mem_map_of_mem hs, ServeConn.mem_held.mpr ⟨hhash, rfl⟩⟩
  · rintro ⟨g, hg, hin⟩
    obtain ⟨s, hs, rfl⟩ := List.mem_map.mp hg
    obtain ⟨hhash, rfl⟩ := ServeConn.mem_held.mp hin
    refine ⟨s, hs, ?_, rfl, hhash⟩
    by_contra hover
    rw [(htidy s hs).2 (Bool.not_eq_true _ ▸ hover)] at hhash
    exact List.not_mem_nil hhash

/-- Everybody who is being served is listed, and nobody else. -/
def Exact (w : ServedWorld) : Prop := ∀ hash addr, w.Lists hash addr ↔ w.Latched hash addr

theorem Mirrors.exact_iff (h : w.Mirrors l) (hinv : w.Inv) (hown : l.Owned) :
    w.Exact ↔ l.Entered := by
  unfold Exact
  constructor
  · intro hexact g hg x hx
    exact (h.taken x.1 x.2).mpr
      ((hexact x.1 x.2).mpr ((h.latched_iff hinv.tidy).mpr ⟨g, hg, hx⟩))
  · intro hent hash addr
    rw [← h.taken, h.latched_iff hinv.tidy]
    exact ⟨hown _, fun ⟨g, hg, hx⟩ => hent g hg _ hx⟩

/-- What an operation does to the ledger. -/
inductive Books (w : ServedWorld) (l l' : Ledger (Hash16 × SocketAddr)) : ServedOp → Prop where
  | join (peer : ServedPeer) : l' = l.join → Books w l l' (.connect peer)
  | keep (op : ServedOp) : l' = l → w.DropsLast op → Books w l l' op
  | grant {i : Nat} {s : ServeConn} (hash : Hash16) : w.sessions[i]? = some s →
      l' = l.grant i s.held [(hash, s.peer.addr)] → Books w l l' (.latch i hash)
  | giveBack {op : ServedOp} {i : Nat} {s : ServeConn} (hash : Hash16) :
      w.sessions[i]? = some s → l' = l.giveBack i s.held [(hash, s.peer.addr)] →
      (w.DropsLast op ↔ w.Alone i s.peer.addr hash) → Books w l l' op

theorem Mirrors.grant (h : w.Mirrors l) (i : Nat) (s : ServeConn) (hash : Hash16) :
    Mirrors ⟨w.served.noteServing hash s.peer,
      w.sessions.set i { s with guards := s.guards ++ [hash] }⟩
      (l.grant i s.held [(hash, s.peer.addr)]) where
  held := by
    have hheld : ({ s with guards := s.guards ++ [hash] } : ServeConn).held =
        s.held ++ [(hash, s.peer.addr)] := List.map_append
    rw [List.map_set, ← h.held, hheld]
    rfl
  taken f a := by
    show (f, a) ∈ l.taken ++ _ ↔ a ∈ (w.served.noteServing hash s.peer).servedAddrs f
    rw [List.mem_append, List.mem_singleton, Prod.mk.injEq, ServedPeers.mem_servedAddrs_noteServing,
      h.taken]
    exact Iff.rfl

theorem Mirrors.giveBack (h : w.Mirrors l) (i : Nat) {s s' : ServeConn} (hash : Hash16)
    (hpeer : s'.peer = s.peer)
    (hguards : s'.guards = s.guards.filter fun f => f ≠ hash) :
    Mirrors ⟨w.served.stopServing hash s.peer.addr, w.sessions.set i s'⟩
      (l.giveBack i s.held [(hash, s.peer.addr)]) where
  held := by
    have hheld : s'.held = s.held.filter (· ∉ [(hash, s.peer.addr)]) := by
      unfold ServeConn.held
      rw [List.filter_map, hguards, hpeer]
      congr 1
      refine List.filter_congr fun f _ => ?_
      simp
    rw [List.map_set, ← h.held, hheld]
    rfl
  taken f a := by
    show (f, a) ∈ l.taken.filter _ ↔ a ∈ (w.served.stopServing hash s.peer.addr).servedAddrs f
    rw [List.mem_filter, h.taken, ServedPeers.mem_servedAddrs_stopServing, decide_eq_true_eq,
      List.mem_singleton, Prod.mk.injEq]
    exact Iff.rfl

/-- Nobody else holds what is given back. -/
theorem Mirrors.sole_iff (h : w.Mirrors l) {i : Nat} {addr : SocketAddr} {hash : Hash16} :
    l.Sole i [(hash, addr)] ↔ w.Alone i addr hash := by
  constructor
  · intro hsole j t hj hne haddr hhash
    exact hsole j t.held (h.holder hj) hne _ (List.mem_singleton_self _)
      (ServeConn.mem_held.mpr ⟨hhash, haddr.symm⟩)
  · intro halone j g hg hne x hx hin
    rw [List.mem_singleton] at hx
    subst hx
    rw [h.held, List.getElem?_map, Option.map_eq_some_iff] at hg
    obtain ⟨t, ht, rfl⟩ := hg
    obtain ⟨hhash, haddr⟩ := ServeConn.mem_held.mp hin
    exact halone j t ht hne haddr.symm hhash

/-! ## One operation -/

theorem tidy_set (h : ∀ s ∈ w.sessions, Tidy s) {i : Nat} {s : ServeConn} (hs : Tidy s) :
    ∀ t ∈ w.sessions.set i s, Tidy t := by
  intro t ht
  rcases List.mem_or_eq_of_mem_set ht with ht | rfl
  · exact h t ht
  · exact hs

/-- Every operation is one of the ledger. -/
theorem step_books (htidy : ∀ s ∈ w.sessions, Tidy s) (h : w.Mirrors l) {op : ServedOp}
    (hstep : w.step op = some w') :
    (∀ s ∈ w'.sessions, Tidy s) ∧ ∃ l', w'.Mirrors l' ∧ w.Books l l' op := by
  cases op with
  | connect peer =>
    cases hstep
    refine ⟨fun s hs => ?_, l.join, ⟨?_, h.taken⟩, .join peer rfl⟩
    · rcases List.mem_append.mp hs with hs | hs
      · exact htidy s hs
      · rw [List.mem_singleton.mp hs]
        exact ⟨List.nodup_nil, fun _ => rfl⟩
    · rw [List.map_append, ← h.held]
      rfl
  | latch i hash =>
    dsimp only [step] at hstep
    cases hs : w.sessions[i]? with
    | none =>
      rw [hs] at hstep
      cases hstep
    | some s =>
      rw [hs] at hstep
      have hmem := List.mem_of_getElem? hs
      dsimp only at hstep
      split_ifs at hstep with hbusy hsame
      · cases hstep
        exact ⟨htidy, l, h, .keep _ rfl trivial⟩
      · cases hstep
        rw [not_or, Bool.not_eq_false, not_lt] at hbusy
        have hfresh : hash ∉ s.guards := by
          intro hin
          obtain ⟨f, hf⟩ := List.length_eq_one_iff.mp
            (le_antisymm hbusy.2 (List.length_pos_of_mem hin))
          rw [hf, List.mem_singleton] at hin
          exact hsame (hf.trans (by rw [hin]))
        refine ⟨tidy_set htidy ⟨?_, fun hover => ?_⟩, _, h.grant i s hash, .grant hash hs rfl⟩
        · exact List.Nodup.append (htidy s hmem).1 (List.nodup_singleton _) fun f hf hf' =>
            hfresh (List.mem_singleton.mp hf' ▸ hf)
        · exact absurd (hbusy.1.symm.trans hover) (by decide)
  | dropOld i =>
    dsimp only [step] at hstep
    cases hs : w.sessions[i]? with
    | none =>
      rw [hs] at hstep
      cases hstep
    | some s =>
      rw [hs] at hstep
      have hmem := List.mem_of_getElem? hs
      dsimp only at hstep
      split at hstep
      · next old hash hguards =>
        cases hstep
        have hnodup := (htidy s hmem).1
        rw [hguards] at hnodup
        have hne : hash ≠ old := fun heq => by simp [heq] at hnodup
        refine ⟨tidy_set htidy ⟨List.nodup_singleton _, fun hover => ?_⟩, _,
          h.giveBack i old rfl (by simp [hguards, hne]), .giveBack old hs rfl ?_⟩
        · rw [(htidy s hmem).2 hover] at hguards
          cases hguards
        · constructor
          · exact fun hlast => hlast s old hash hs hguards
          · intro halone s' old' hash' hs' hguards'
            cases hs.symm.trans hs'
            cases hguards.symm.trans hguards'
            exact halone
      · cases hstep
  | leave i =>
    dsimp only [step] at hstep
    cases hs : w.sessions[i]? with
    | none =>
      rw [hs] at hstep
      cases hstep
    | some s =>
      rw [hs] at hstep
      have hmem := List.mem_of_getElem? hs
      dsimp only at hstep
      split_ifs at hstep with hover
      split at hstep
      · next hguards =>
        cases hstep
        refine ⟨tidy_set htidy ⟨?_, fun _ => hguards⟩, l, ⟨?_, h.taken⟩, .keep _ rfl ?_⟩
        · show s.guards.Nodup
          exact (htidy s hmem).1
        · have hheld : ({ s with live := false } : ServeConn).held = s.held := rfl
          rw [List.map_set, hheld, ← h.held]
          exact (Slots.set_of_getElem? (h.holder hs)).symm
        · intro s' hash hs' _ hguards'
          cases hs.symm.trans hs'
          cases hguards.symm.trans hguards'
      · next hash hguards =>
        cases hstep
        refine ⟨tidy_set htidy ⟨List.nodup_nil, fun _ => rfl⟩, _,
          h.giveBack i hash rfl (by simp [hguards]), .giveBack hash hs rfl ?_⟩
        constructor
        · exact fun hlast => hlast s hash hs (Bool.not_eq_false _ ▸ hover) hguards
        · intro halone s' hash' hs' _ hguards'
          cases hs.symm.trans hs'
          cases hguards.symm.trans hguards'
          exact halone
      · cases hstep

theorem Books.owned (h : w.Mirrors l) {l' : Ledger (Hash16 × SocketAddr)} {op : ServedOp}
    (hown : l.Owned) (hbooks : w.Books l l' op) : l'.Owned := by
  cases hbooks with
  | join peer heq => exact heq ▸ hown.join
  | keep op heq hlast => exact heq ▸ hown
  | grant hash hs heq => exact heq ▸ hown.grant (h.holder hs) _
  | giveBack hash hs heq hiff => exact heq ▸ hown.giveBack (h.holder hs) _

theorem Books.entered_iff (h : w.Mirrors l) {l' : Ledger (Hash16 × SocketAddr)} {op : ServedOp}
    (hent : l.Entered) (hbooks : w.Books l l' op) : l'.Entered ↔ w.DropsLast op := by
  cases hbooks with
  | join peer heq => exact iff_of_true (heq ▸ hent.join) trivial
  | keep op heq hlast => exact iff_of_true (heq ▸ hent) hlast
  | grant hash hs heq => exact iff_of_true (heq ▸ hent.grant (h.holder hs) _) trivial
  | giveBack hash hs heq hiff =>
    rw [heq, hent.giveBack_iff (h.holder hs), h.sole_iff, hiff]

/-! ## Runs -/

theorem inv_new : new.Inv where
  tidy := fun _ hs => absurd hs List.not_mem_nil
  ledger := ⟨⟨[], []⟩, ⟨rfl, fun _ _ => iff_of_false List.not_mem_nil List.not_mem_nil⟩,
    Ledger.owned_empty⟩

theorem inv_step {op : ServedOp} (h : w.Inv) (hstep : w.step op = some w') : w'.Inv := by
  obtain ⟨l, hl, hown⟩ := h.ledger
  obtain ⟨htidy, l', hl', hbooks⟩ := step_books h.tidy hl hstep
  exact ⟨htidy, l', hl', hbooks.owned hl hown⟩

theorem exact_step {op : ServedOp} (h : w.Inv) (hexact : w.Exact) (hstep : w.step op = some w') :
    w'.Exact ↔ w.DropsLast op := by
  obtain ⟨l, hl, hown⟩ := h.ledger
  obtain ⟨htidy, l', hl', hbooks⟩ := step_books h.tidy hl hstep
  have hown' := hbooks.owned hl hown
  rw [hl'.exact_iff ⟨htidy, l', hl', hown'⟩ hown']
  exact hbooks.entered_iff hl ((hl.exact_iff h hown).mp hexact)

/-- In no run is an address listed under a file that no live session of it is latched on. -/
theorem listed_latched {ops : List ServedOp} (hrun : Runs.run step new ops = some w)
    {hash : Hash16} {addr : SocketAddr} (h : w.Lists hash addr) : w.Latched hash addr := by
  have hinv : w.Inv := Runs.run_induct (fun _ _ _ hi hs => inv_step hi hs) inv_new hrun
  obtain ⟨l, hl, hown⟩ := hinv.ledger
  exact (hl.latched_iff hinv.tidy).mpr (hown _ ((hl.taken hash addr).mpr h))

/-- Who asks for the sources of a file is told of peers that are being served the file, at the
    addresses they can be dialled at, and not of itself. -/
theorem sourcesFor_live {ops : List ServedOp} (hrun : Runs.run step new ops = some w)
    {hash : Hash16} {asker : Option SocketAddr} {x : SxSource}
    (h : x ∈ w.served.sourcesFor hash asker) :
    ∃ ip port, x.ip = swapBytes ip ∧ x.port = port ∧ port ≠ 0 ∧ isRoutablePublicV4 ip = true ∧
      some (.v4 ip port) ≠ asker ∧ w.Latched hash (.v4 ip port) := by
  obtain ⟨p, hp, hx⟩ := List.mem_filterMap.mp h
  obtain ⟨hlisted, hasker⟩ := List.mem_filter.mp hp
  have hlists : w.Lists hash p.addr := List.mem_map_of_mem hlisted
  cases haddr : p.addr with
  | v6 ip port =>
    rw [haddr] at hx
    cases hx
  | v4 ip port =>
    rw [haddr] at hx hasker hlists
    dsimp only at hx
    split_ifs at hx with hroute hport
    cases hx
    refine ⟨ip, port, rfl, rfl, hport, by simpa using hroute, of_decide_eq_true hasker, ?_⟩
    exact listed_latched hrun hlists

/-- Along a run an address is always listed under exactly the files its live sessions are latched
    on, if and only if every guard that is dropped is the last of its address for its file. -/
theorem served_list_iff (ops : List ServedOp) :
    Runs.Always step Exact new ops ↔ Runs.Throughout step DropsLast new ops := by
  refine Runs.always_iff_throughout (fun _ _ _ h hs => inv_step h hs) (fun w op hnone => ?_)
    (fun _ _ _ h hg hs => exact_step h hg hs) inv_new ?_ ops
  · cases op with
    | connect peer => trivial
    | latch i hash => trivial
    | dropOld i =>
      intro s old hash hs hguards
      simp [step, hs, hguards] at hnone
    | leave i =>
      intro s hash hs hlive hguards
      simp [step, hs, hguards, hlive] at hnone
  · exact fun hash addr => iff_of_false List.not_mem_nil fun ⟨s, hs, _⟩ =>
      absurd hs List.not_mem_nil

/-- Two sessions of one peer on one file: when the first ends, the second is served unlisted. -/
theorem second_session_unlisted :
    ¬Runs.Always step Exact new
      [.connect ⟨.v4 0x01020304 4662, none, none⟩, .connect ⟨.v4 0x01020304 4662, none, none⟩,
        .latch 0 (.fill 16 1), .latch 1 (.fill 16 1), .leave 0] := by
  intro h
  have hexact := ((((h.2 _ rfl).2 _ rfl).2 _ rfl).2 _ rfl).2 _ rfl
  have hlisted := (hexact (.fill 16 1) (.v4 0x01020304 4662)).mpr
    ⟨⟨⟨.v4 0x01020304 4662, none, none⟩, [.fill 16 1], true⟩, by decide, rfl, rfl, by decide⟩
  exact absurd hlisted (show SocketAddr.v4 _ _ ∉ ServedPeers.servedAddrs _ _ by decide)

end ServedWorld

end PadMule.Engine
