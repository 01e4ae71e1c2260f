import Foskv.Generic.Run
import Foskv.Raft.ConfigRoundTrip

/-! Adding and removing peers of a loaded configuration: the map of its peers, the nodes of its
JSON value and its file over every sequence of successful calls. -/
namespace Foskv.Raft
open Generic

inductive MembershipCall
  | addPeer (node : NodeInfo) (io : IoOutcome)
  | removePeer (node : NodeInfo) (io : IoOutcome)
  | removePeerById (memberId : UInt64) (io : IoOutcome)

theorem Listed.unique {root : Json} {entries entries' : List (UInt64 × NodeInfo)}
    (h : Listed root entries) (h' : Listed root entries') : entries = entries' := by
  obtain ⟨nodes,hnodes,hreads⟩ := h
  obtain ⟨nodes',hnodes',hreads'⟩ := h'
  obtain rfl := Option.some.inj (hnodes.symm.trans hnodes')
  have functional : Relator.RightUnique Reads := fun node entry entry' he he' =>
    Except.ok.inj (he.symm.trans he')
  exact List.right_unique_forall₂' functional hreads hreads'

/-- A relation along an appended list, at one of its elements. -/
theorem forall₂_split {α β : Type} {R : α → β → Prop} {before after : List α} {a : α} {l : List β}
    (h : List.Forall₂ R (before ++ a :: after) l) : ∃ before' b after', l = before' ++ b :: after' ∧
      List.Forall₂ R before before' ∧ R a b ∧ List.Forall₂ R after after' := by
  induction before generalizing l with
  | nil =>
    cases h with
    | @cons _ b _ after' hab hafter => exact ⟨[],b,after',rfl,.nil,hab,hafter⟩
  | cons c before ih =>
    cases h with
    | @cons _ d _ l hcd hl =>
      obtain ⟨before',b,after',rfl,hbefore,hab,hafter⟩ := ih hl
      exact ⟨d :: before',b,after',rfl,.cons hcd hbefore,hab,hafter⟩

theorem PeerMap.erase_ofEntries {before after : List (UInt64 × NodeInfo)} {e : UInt64 × NodeInfo}
    (h : ((before ++ e :: after).map Prod.fst).Nodup) :
    (ofEntries (before ++ e :: after)).erase e.1 = ofEntries (before ++ after) := by
  have hsub : (before ++ after).Sublist (before ++ e :: after) :=
    (List.sublist_cons_self e after).append_left before
  have hrest : ((before ++ after).map Prod.fst).Nodup := h.sublist (hsub.map Prod.fst)
  have hfresh : e.1 ∉ (before ++ after).map Prod.fst := by
    rw [List.map_append, List.map_cons] at h
    rw [List.map_append]
    exact (List.nodup_middle.mp h).notMem
  refine (eq_ofEntries_iff hrest).mpr fun id info => ?_
  by_cases hid : id = e.1
  · subst hid
    rw [Finmap.lookup_erase]
    exact iff_of_false (fun hmem => hfresh (List.mem_map.mpr ⟨_,hmem,rfl⟩)) nofun
  · rw [Finmap.lookup_erase_ne hid, lookup_ofEntries h]
    simp only [List.mem_append, List.mem_cons]
    refine or_congr_right ⟨.inr,fun hmem => hmem.resolve_left ?_⟩
    rintro rfl
    exact hid rfl

/-- The member id of the first node that compares equal to a number. -/
def firstEqualId (root : Json) (memberId : UInt64) : Option UInt64 := do
  let nodes ← root.field? nodesKey
  let node ← nodes.elements.find? fun node =>
    LoadedConfig.hasMemberId memberId node = .ok true
  return (← (readNode node).toOption).1

/-- No node has a double as its member id. -/
def IntegerIds (root : Json) : Prop :=
  ∀ nodes, root.field? nodesKey = some nodes → ∀ node ∈ nodes.elements, ∀ bits,
    node.field? memberIdKey ≠ some (.double bits)

/-- A node compares equal to its own member id only, unless that is a double. -/
theorem hasMemberId_iff {node : Json} {entry : UInt64 × NodeInfo} (h : Reads node entry)
    (integer : ∀ bits, node.field? memberIdKey ≠ some (.double bits)) {memberId : UInt64} :
    LoadedConfig.hasMemberId memberId node = .ok true ↔ entry.1 = memberId := by
  simp only [Reads, readNode, bind_eq_ok] at h
  obtain ⟨value,hvalue,id,hid,_,_,name,_,_,_,host,_,_,_,port,_,he⟩ := h
  obtain rfl : (id,(⟨name,host,port⟩ : NodeInfo)) = entry := Except.ok.inj he
  have hequals : LoadedConfig.hasMemberId memberId node = .ok (value.equalsUInt64 memberId) := by
    unfold LoadedConfig.hasMemberId
    rw [hvalue]
    rfl
  rw [hequals]
  cases value with
  | integer z =>
    obtain rfl := Except.ok.inj hid
    simp [Json.equalsUInt64]
  | double bits => exact absurd (Json.child_eq_ok.mp hvalue) (integer bits)
  | _ => simp [Json.getUInt64] at hid

/-- Among integer member ids, the first node that compares equal to a listed one is its own. -/
theorem firstEqualId_eq_self {root : Json} {entries : List (UInt64 × NodeInfo)}
    {memberId : UInt64} (listed : Listed root entries) (integers : IntegerIds root)
    (hmem : memberId ∈ entries.map Prod.fst) : firstEqualId root memberId = some memberId := by
  obtain ⟨nodes,hnodes,reads⟩ := listed
  have integers := integers nodes hnodes
  have hfind : ∃ node entry, nodes.elements.find? (fun node =>
      LoadedConfig.hasMemberId memberId node = .ok true) = some node ∧ Reads node entry ∧
        entry.1 = memberId := by
    generalize nodes.elements = elements at reads integers
    induction reads with
    | nil => simp at hmem
    | @cons node entry elements entries hread reads ih =>
      obtain ⟨hinteger,integers⟩ := List.forall_mem_cons.mp integers
      have hiff : LoadedConfig.hasMemberId memberId node = .ok true ↔ entry.1 = memberId :=
        hasMemberId_iff hread hinteger
      by_cases hid : entry.1 = memberId
      · exact ⟨node,entry,by simp [hiff.mpr hid],hread,hid⟩
      · have hrest : memberId ∈ entries.map Prod.fst :=
          (List.mem_cons.mp hmem).resolve_left fun he => hid he.symm
        obtain ⟨node',entry',hfind,hread',hid'⟩ := ih hrest integers
        have hnot : LoadedConfig.hasMemberId memberId node ≠ .ok true := fun h => hid (hiff.mp h)
        exact ⟨node',entry',by simp [hnot, hfind],hread',hid'⟩
  obtain ⟨node,entry,hnode,hread,rfl⟩ := hfind
  have hread : readNode node = .ok entry := hread
  simp [firstEqualId, hnodes, hnode, hread, Except.toOption]

section Calls

variable [ConfigLibraries]
open ConfigLibraries

def MembershipCall.result (call : MembershipCall) (cfg : LoadedConfig) (fs : FileSystem) :
    LoadedConfig × FileSystem × Attempt Unit :=
  match call with
  | .addPeer node io => cfg.addPeer fs io node
  | .removePeer node io => cfg.removePeer fs io node
  | .removePeerById memberId io => cfg.removePeerById fs io memberId

/-- A successful call. -/
def membershipStep (s : LoadedConfig × FileSystem) (call : MembershipCall) :
    Option (LoadedConfig × FileSystem) :=
  match call.result s.1 s.2 with
  | (cfg,fs,.ok ()) => some (cfg,fs)
  | (_,_,.error _) => none

/-- The map of the peers, the nodes of the JSON value and the saved file agree. -/
structure LoadedConfig.InStep (cfg : LoadedConfig) (fs : FileSystem) : Prop where
  listed : ∃ entries, Listed cfg.json entries ∧ (entries.map Prod.fst).Nodup ∧
    ∀ id info, (id,info) ∈ entries ↔ cfg.peers.lookup id = some info
  reloads : ∃ cfg', loadConfig fs cfg.path = .ok cfg' ∧ cfg'.peers = cfg.peers

/-- What every call keeps. -/
def LoadedConfig.Sound (cfg : LoadedConfig) : Prop := ∃ entries, cfg.Describes entries

/-- An added member is new; the first node that compares equal to a removed member is its own. -/
def MembershipCall.Keeps (s : LoadedConfig × FileSystem) : MembershipCall → Prop
  | .addPeer node _ => node.hash ∉ s.1.peers
  | .removePeer node _ => firstEqualId s.1.json node.hash = some node.hash
  | .removePeerById memberId _ => firstEqualId s.1.json memberId = some memberId

/-- The value of the configuration is in its file. -/
structure LoadedConfig.Saved (cfg : LoadedConfig) (fs : FileSystem)
    (entries : List (UInt64 × NodeInfo)) : Prop extends cfg.Describes entries where
  stored : ∃ text, dump cfg.json = some text ∧ fs cfg.path = some text

theorem LoadedConfig.Saved.load {cfg : LoadedConfig} {fs : FileSystem}
    {entries : List (UInt64 × NodeInfo)} (saved : cfg.Saved fs entries) :
    loadConfig fs cfg.path =
      if (entries.map Prod.fst).Nodup then .ok {cfg with peers := .ofEntries entries}
      else .error (.error .repeatedPeer) := by
  obtain ⟨text,hdump,hfile⟩ := saved.stored
  exact loadConfig_stored saved.toDescribes hdump hfile

/-- A saved configuration is in step exactly if its entries are different and are its peers. -/
theorem LoadedConfig.Saved.inStep_iff {cfg : LoadedConfig} {fs : FileSystem}
    {entries : List (UInt64 × NodeInfo)} (saved : cfg.Saved fs entries) :
    cfg.InStep fs ↔ (entries.map Prod.fst).Nodup ∧ cfg.peers = .ofEntries entries := by
  constructor
  · rintro ⟨⟨entries',hlisted',hnodup,hlookup⟩,_⟩
    obtain rfl := saved.listed.unique hlisted'
    exact ⟨hnodup,(PeerMap.eq_ofEntries_iff hnodup).mpr hlookup⟩
  · rintro ⟨hnodup,hpeers⟩
    exact ⟨⟨entries,saved.listed,hnodup,(PeerMap.eq_ofEntries_iff hnodup).mp hpeers⟩,_,
      saved.load.trans (if_pos hnodup),hpeers.symm⟩

theorem LoadedConfig.Saved.sound {cfg : LoadedConfig} {fs : FileSystem}
    {entries : List (UInt64 × NodeInfo)} (saved : cfg.Saved fs entries) : cfg.Sound :=
  ⟨entries,saved.toDescribes⟩

/-- What a successful `save` has written. -/
theorem LoadedConfig.save_eq_ok {cfg : LoadedConfig} {fs fs' : FileSystem} {io : IoOutcome}
    (h : cfg.save fs io = (fs',.ok ())) :
    ∃ text, dump cfg.json = some text ∧ fs' cfg.path = some text := by
  unfold LoadedConfig.save at h
  cases hdump : dump cfg.json with
  | none => simp [hdump] at h
  | some text =>
    simp only [hdump] at h
    refine ⟨text,rfl,?_⟩
    cases hopened : io.opened with
    | false => simp [hopened] at h
    | true =>
      cases hwrite : io.failsAfter with
      | some n => simp [hopened, writeAll, hwrite] at h
      | none =>
        cases hrenamed : io.renamed with
        | false => simp [hopened, writeAll, hwrite, hrenamed] at h
        | true =>
          simp only [hopened, writeAll, hwrite, hrenamed, Bool.not_true, Bool.false_eq_true,
            ↓reduceIte] at h
          obtain rfl := (Prod.mk.inj h).1
          simp [FileSystem.rename]

/-- What a successful change of the nodes leaves. -/
theorem LoadedConfig.editNodes_eq_ok {cfg cfg' : LoadedConfig} {fs fs' : FileSystem}
    {io : IoOutcome} {edit : Json → Attempt Json} {nodes : Json} {peers : PeerMap}
    (hnodes : cfg.json.field? nodesKey = some nodes)
    (h : editNodes edit {cfg with peers := peers} fs io = (cfg',fs',.ok ())) :
    ∃ nodes' text, edit nodes = .ok nodes' ∧
      cfg' = {cfg with peers := peers, json := cfg.json.put nodesKey nodes'} ∧
        dump cfg'.json = some text ∧ fs' cfg'.path = some text := by
  unfold editNodes at h
  rw [Json.subscript_of_field? hnodes] at h
  cases hedit : edit nodes with
  | error e => simp [hedit] at h
  | ok nodes' =>
    simp only [hedit] at h
    obtain ⟨rfl,hsave⟩ := Prod.mk.inj h
    obtain ⟨text,hdump,hfile⟩ := save_eq_ok hsave
    exact ⟨nodes',text,rfl,rfl,hdump,hfile⟩

theorem LoadedConfig.saved_put {cfg cfg' : LoadedConfig} {fs : FileSystem} {nodes nodes' : Json}
    {before entries : List (UInt64 × NodeInfo)} {peers : PeerMap} {text : Bytes}
    (describes : cfg.Describes before) (hnodes : cfg.json.field? nodesKey = some nodes)
    (hnodes' : nodes'.Canonical) (reads : List.Forall₂ Reads nodes'.elements entries)
    (addressed : Addressed entries)
    (hcfg : cfg' = {cfg with peers := peers, json := cfg.json.put nodesKey nodes'})
    (hdump : dump cfg'.json = some text) (hfile : fs cfg'.path = some text) :
    cfg'.Saved fs entries := by
  obtain ⟨hself,hother,hcanonical⟩ := Json.put_spec nodes' hnodes
  have hheader := describes.header.congr hother
  subst hcfg
  refine ⟨?_,text,hdump,hfile⟩
  constructor
  case canonical => exact hcanonical describes.canonical hnodes'
  case header => exact ⟨hheader.clusterId,hheader.memberId,hheader.name,hheader.host,
    hheader.port,hheader.valid⟩
  case listed => exact ⟨nodes',hself,reads⟩
  case addressed => exact addressed

/-- A successful `add_peer` puts one entry at the end. -/
theorem LoadedConfig.addPeer_eq_ok {cfg cfg' : LoadedConfig} {fs fs' : FileSystem} {io : IoOutcome}
    {node : NodeInfo} {entries : List (UInt64 × NodeInfo)} (describes : cfg.Describes entries)
    (h : cfg.addPeer fs io node = (cfg',fs',.ok ())) :
    cfg'.Saved fs' (entries ++ [(node.hash,node)]) ∧
      cfg'.peers = cfg.peers.emplace node.hash node := by
  obtain ⟨nodes,hnodes,hreads⟩ := describes.listed
  unfold addPeer createPeer at h
  by_cases hvalid : validAddr node.host node.port = true
  · rw [if_pos hvalid] at h
    dsimp only at h
    obtain ⟨nodes',text,hpush,hcfg,hdump,hfile⟩ := editNodes_eq_ok hnodes h
    have helements := Json.elements_pushBack hpush
    have hreads' : List.Forall₂ Reads nodes'.elements (entries ++ [(node.hash,node)]) := by
      rw [helements]
      exact List.rel_append hreads (.cons (reads_entry node) .nil)
    have haddressed : Addressed (entries ++ [(node.hash,node)]) := by
      intro e he
      rcases List.mem_append.mp he with he | he
      · exact describes.addressed e he
      · obtain rfl := List.mem_singleton.mp he
        exact hvalid
    have hcanonical := (describes.canonical.field? hnodes).pushBack (canonical_entry node) hpush
    exact ⟨saved_put describes hnodes hcanonical hreads' haddressed hcfg hdump hfile,
      by rw [hcfg]⟩
  · simp [hvalid] at h

/-- A successful `remove_peer` takes one entry out. -/
theorem LoadedConfig.removePeerById_eq_ok {cfg cfg' : LoadedConfig} {fs fs' : FileSystem}
    {io : IoOutcome} {memberId : UInt64} {entries : List (UInt64 × NodeInfo)}
    (describes : cfg.Describes entries)
    (h : cfg.removePeerById fs io memberId = (cfg',fs',.ok ())) :
    memberId ∈ cfg.peers ∧ cfg'.peers = cfg.peers.erase memberId ∧ ∃ before e after,
      entries = before ++ e :: after ∧ firstEqualId cfg.json memberId = some e.1 ∧
        cfg'.Saved fs' (before ++ after) := by
  obtain ⟨nodes,hnodes,hreads⟩ := describes.listed
  unfold removePeerById at h
  by_cases hmem : memberId ∈ cfg.peers
  · rw [if_pos hmem] at h
    obtain ⟨nodes',text,herase,hcfg,hdump,hfile⟩ := editNodes_eq_ok hnodes h
    obtain ⟨before,a,after,helements,helements',hbefore,ha⟩ := Json.elements_eraseFirst herase
    rw [helements] at hreads
    obtain ⟨before',e,after',rfl,hb,hae,haf⟩ := forall₂_split hreads
    have hreads' : List.Forall₂ Reads nodes'.elements (before' ++ after') := by
      rw [helements']
      exact List.rel_append hb haf
    have hsub : (before' ++ after').Sublist (before' ++ e :: after') :=
      (List.sublist_cons_self e after').append_left before'
    have haddressed : Addressed (before' ++ after') := fun e' he' =>
      describes.addressed e' (hsub.subset he')
    have hcanonical := (describes.canonical.field? hnodes).eraseFirst herase
    have hfind : nodes.elements.find? (fun node => hasMemberId memberId node = .ok true) =
        some a := by
      rw [helements, List.find?_append, List.find?_eq_none.mpr fun b hb => by simp [hbefore b hb]]
      simp [ha]
    have hid : firstEqualId cfg.json memberId = some e.1 := by
      have hread : readNode a = .ok e := hae
      simp [firstEqualId, hnodes, hfind, hread, Except.toOption]
    exact ⟨hmem,by rw [hcfg],before',e,after',rfl,hid,
      saved_put describes hnodes hcanonical hreads' haddressed hcfg hdump hfile⟩
  · simp [hmem] at h

section Steps

variable {cfg cfg' : LoadedConfig} {fs fs' : FileSystem}

/-- The entries of a configuration that is in step. -/
theorem LoadedConfig.InStep.entries (h : cfg.InStep fs) (sound : cfg.Sound) :
    ∃ entries, cfg.Describes entries ∧ (entries.map Prod.fst).Nodup ∧
      cfg.peers = .ofEntries entries := by
  obtain ⟨⟨entries,hlisted,hnodup,hlookup⟩,_⟩ := h
  obtain ⟨entries',describes⟩ := sound
  obtain rfl := hlisted.unique describes.listed
  exact ⟨entries,describes,hnodup,(PeerMap.eq_ofEntries_iff hnodup).mpr hlookup⟩

theorem LoadedConfig.inStep_addPeer_iff {node : NodeInfo} {io : IoOutcome} (sound : cfg.Sound)
    (hstep : cfg.InStep fs) (h : cfg.addPeer fs io node = (cfg',fs',.ok ())) :
    cfg'.InStep fs' ↔ node.hash ∉ cfg.peers := by
  obtain ⟨entries,describes,hnodup,hpeers⟩ := hstep.entries sound
  obtain ⟨saved,hpeers'⟩ := addPeer_eq_ok describes h
  rw [saved.inStep_iff, hpeers', hpeers, PeerMap.mem_ofEntries]
  constructor
  · exact fun h => (nodup_keys_concat.mp h.1).2
  · intro hfresh
    have hnodup' : ((entries ++ [(node.hash,node)]).map Prod.fst).Nodup :=
      nodup_keys_concat.mpr ⟨hnodup,hfresh⟩
    refine ⟨hnodup',?_⟩
    rw [PeerMap.emplace, if_neg fun hmem => hfresh (PeerMap.mem_ofEntries.mp hmem),
      PeerMap.ofEntries_concat hnodup']

theorem LoadedConfig.inStep_removePeerById_iff {memberId : UInt64} {io : IoOutcome}
    (sound : cfg.Sound) (hstep : cfg.InStep fs)
    (h : cfg.removePeerById fs io memberId = (cfg',fs',.ok ())) :
    cfg'.InStep fs' ↔ firstEqualId cfg.json memberId = some memberId := by
  obtain ⟨entries,describes,hnodup,hpeers⟩ := hstep.entries sound
  obtain ⟨hmem,hpeers',before,e,after,rfl,hid,saved⟩ := removePeerById_eq_ok describes h
  rw [saved.inStep_iff, hpeers', hpeers, hid, Option.some_inj]
  constructor
  · -- the erased element is no longer listed, so its peer must be the one that was erased
    rintro ⟨_,herased⟩
    by_contra hne
    have hthere : e.1 ∈ (PeerMap.ofEntries (before ++ e :: after)).erase memberId :=
      Finmap.mem_erase.mpr ⟨hne,PeerMap.mem_ofEntries.mpr (by simp)⟩
    rw [herased, ← PeerMap.erase_ofEntries hnodup] at hthere
    exact Finmap.notMem_erase_self hthere
  · rintro rfl
    refine ⟨?_,PeerMap.erase_ofEntries hnodup⟩
    exact hnodup.sublist (((List.sublist_cons_self e after).append_left before).map Prod.fst)

theorem membershipStep_eq_some {s s' : LoadedConfig × FileSystem} {call : MembershipCall}
    (h : membershipStep s call = some s') : call.result s.1 s.2 = (s'.1,s'.2,.ok ()) := by
  unfold membershipStep at h
  split at h
  · next hresult =>
    obtain rfl := Option.some.inj h
    exact hresult
  · simp at h

/-- A successful call keeps the configuration sound. -/
theorem membershipStep_sound {s s' : LoadedConfig × FileSystem} {call : MembershipCall}
    (sound : s.1.Sound) (h : membershipStep s call = some s') : s'.1.Sound := by
  obtain ⟨entries,describes⟩ := sound
  have hresult := membershipStep_eq_some h
  have removed {memberId : UInt64} {io : IoOutcome}
      (h : s.1.removePeerById s.2 io memberId = (s'.1,s'.2,.ok ())) : s'.1.Sound := by
    obtain ⟨_,_,_,_,_,_,_,saved⟩ := LoadedConfig.removePeerById_eq_ok describes h
    exact saved.sound
  cases call with
  | addPeer node io => exact (LoadedConfig.addPeer_eq_ok describes hresult).1.sound
  | removePeer node io => exact removed hresult
  | removePeerById memberId io => exact removed hresult

/-- A successful call keeps a configuration in step exactly if it is one of those that do. -/
theorem membershipStep_inStep_iff {s s' : LoadedConfig × FileSystem} {call : MembershipCall}
    (sound : s.1.Sound) (hstep : s.1.InStep s.2) (h : membershipStep s call = some s') :
    s'.1.InStep s'.2 ↔ call.Keeps s := by
  have hresult := membershipStep_eq_some h
  cases call with
  | addPeer node io => exact LoadedConfig.inStep_addPeer_iff sound hstep hresult
  | removePeer node io => exact LoadedConfig.inStep_removePeerById_iff sound hstep hresult
  | removePeerById memberId io => exact LoadedConfig.inStep_removePeerById_iff sound hstep hresult

/-- A successful call leaves integer member ids. -/
theorem membershipStep_integerIds {s s' : LoadedConfig × FileSystem} {call : MembershipCall}
    (sound : s.1.Sound) (integers : IntegerIds s.1.json) (h : membershipStep s call = some s') :
    IntegerIds s'.1.json := by
  obtain ⟨_,describes⟩ := sound
  obtain ⟨nodes,hnodes,_⟩ := describes.listed
  have hresult := membershipStep_eq_some h
  have edited {edit : Json → Attempt Json} {peers : PeerMap} {io : IoOutcome}
      (h : LoadedConfig.editNodes edit {s.1 with peers := peers} s.2 io = (s'.1,s'.2,.ok ()))
      (hedit : ∀ nodes', edit nodes = .ok nodes' → ∀ node ∈ nodes'.elements,
        node ∈ nodes.elements ∨ ∀ bits, node.field? memberIdKey ≠ some (.double bits)) :
      IntegerIds s'.1.json := by
    obtain ⟨nodes',_,hnodes',hcfg,_⟩ := LoadedConfig.editNodes_eq_ok hnodes h
    intro nodes'' hfield node hnode
    rw [hcfg] at hfield
    obtain rfl := Option.some.inj ((Json.put_spec nodes' hnodes).1.symm.trans hfield)
    exact (hedit nodes' hnodes' node hnode).elim (integers nodes hnodes node) id
  have removed {memberId : UInt64} {io : IoOutcome}
      (h : s.1.removePeerById s.2 io memberId = (s'.1,s'.2,.ok ())) : IntegerIds s'.1.json := by
    unfold LoadedConfig.removePeerById at h
    split_ifs at h
    · refine edited h fun nodes' herase node hnode => .inl ?_
      obtain ⟨before,a,after,helements,helements',_⟩ := Json.elements_eraseFirst herase
      rw [helements'] at hnode
      rw [helements]
      exact ((List.sublist_cons_self a after).append_left before).subset hnode
    · simp at h
  cases call with
  | addPeer node io =>
    have h : s.1.addPeer s.2 io node = (s'.1,s'.2,.ok ()) := hresult
    unfold LoadedConfig.addPeer at h
    split at h
    · simp at h
    · refine edited h fun nodes' hpush entry hentry => ?_
      rw [Json.elements_pushBack hpush] at hentry
      refine (List.mem_append.mp hentry).imp_right fun hnew bits hdouble => ?_
      obtain rfl := List.mem_singleton.mp hnew
      have hid := (Json.child_eq_ok.mp (child_entry_memberId node)).symm.trans hdouble
      simp at hid
  | removePeer node io => exact removed hresult
  | removePeerById memberId io => exact removed hresult

theorem loadConfig_inStep {path : Path} (h : loadConfig fs path = .ok cfg) :
    cfg.Sound ∧ cfg.InStep fs := by
  obtain ⟨entries,describes,hnodup,hpeers⟩ := loadConfig_describes h
  have hpath : cfg.path = path := (loadConfig_eq_ok.mp h).1
  refine ⟨⟨entries,describes⟩,?_,cfg,?_,rfl⟩
  · exact ⟨entries,describes.listed,hnodup,(PeerMap.eq_ofEntries_iff hnodup).mp hpeers⟩
  · rw [hpath]
    exact h

end Steps

/-- Memory and file stay in step over a run of successful calls exactly if no call adds a member
that is there or removes the entry of another member. -/
theorem membership_inStep_iff {fs : FileSystem} {path : Path} {cfg : LoadedConfig}
    (loaded : loadConfig fs path = .ok cfg) {calls : List MembershipCall}
    {s : LoadedConfig × FileSystem}
    (h : Run membershipStep (fun _ _ => True) (cfg,fs) calls s) :
    (∀ ks t, ks <+: calls → Run membershipStep (fun _ _ => True) (cfg,fs) ks t →
      t.1.InStep t.2) ↔ Run membershipStep (fun t call => call.Keeps t) (cfg,fs) calls s := by
  obtain ⟨sound,hstep⟩ := loadConfig_inStep loaded
  have invariant {ks : List MembershipCall} {t : LoadedConfig × FileSystem}
      (ht : Run membershipStep (fun t call => call.Keeps t) (cfg,fs) ks t) : t.1.Sound :=
    ht.invariant (P := fun t => t.1.Sound) sound fun _ hs _ hn => membershipStep_sound hs hn
  exact Run.always_iff (P := fun t => t.1.InStep t.2) hstep
    (fun ht hin hn => (membershipStep_inStep_iff (invariant ht) hin hn).symm) h

/-- Starting from integer member ids, memory and file stay in step exactly if no call adds a member
that is there. -/
theorem membership_inStep_iff_added {fs : FileSystem} {path : Path} {cfg : LoadedConfig}
    (loaded : loadConfig fs path = .ok cfg) (integers : IntegerIds cfg.json)
    {calls : List MembershipCall} {s : LoadedConfig × FileSystem}
    (h : Run membershipStep (fun _ _ => True) (cfg,fs) calls s) :
    (∀ ks t, ks <+: calls → Run membershipStep (fun _ _ => True) (cfg,fs) ks t →
      t.1.InStep t.2) ↔
      Run membershipStep (fun t call => ∀ node io, call = .addPeer node io →
        node.hash ∉ t.1.peers) (cfg,fs) calls s := by
  obtain ⟨sound,hstep⟩ := loadConfig_inStep loaded
  have invariant {ok : LoadedConfig × FileSystem → MembershipCall → Prop}
      {ks : List MembershipCall} {t : LoadedConfig × FileSystem}
      (ht : Run membershipStep ok (cfg,fs) ks t) : t.1.Sound ∧ IntegerIds t.1.json :=
    ht.invariant (P := fun t => t.1.Sound ∧ IntegerIds t.1.json) ⟨sound,integers⟩
      fun _ hs _ hn => ⟨membershipStep_sound hs.1 hn,membershipStep_integerIds hs.1 hs.2 hn⟩
  refine Run.always_iff (P := fun t => t.1.InStep t.2) hstep (fun {ks t call t'} ht hin hn => ?_) h
  obtain ⟨hsound,hintegers⟩ := invariant ht
  refine Iff.trans ?_ (membershipStep_inStep_iff hsound hin hn).symm
  obtain ⟨entries,describes,_,hpeers⟩ := hin.entries hsound
  have hresult := membershipStep_eq_some hn
  have removed {memberId : UInt64} {io : IoOutcome}
      (h : t.1.removePeerById t.2 io memberId = (t'.1,t'.2,.ok ())) :
      firstEqualId t.1.json memberId = some memberId := by
    have hmem : memberId ∈ t.1.peers := by
      by_contra hnot
      simp [LoadedConfig.removePeerById, hnot] at h
    rw [hpeers] at hmem
    exact firstEqualId_eq_self describes.listed hintegers (PeerMap.mem_ofEntries.mp hmem)
  cases call with
  | addPeer node io =>
    refine ⟨fun hall => hall node io rfl,fun hnew node' io' he => ?_⟩
    obtain ⟨rfl,rfl⟩ := MembershipCall.addPeer.inj he
    exact hnew
  | removePeer node io => exact iff_of_true nofun (removed hresult)
  | removePeerById memberId io => exact iff_of_true nofun (removed hresult)

end Calls

section Examples

attribute [local instance] textLibraries

/-- The configuration of `raft_config_test.cpp` after `load`, and its file. -/
def testLoaded : LoadedConfig × FileSystem :=
  (savedConfig configPath 0 (ascii "node1") (loopback "node1" 8080) testNodes,testSave.1)

theorem loadConfig_testSave : loadConfig testLoaded.2 configPath = .ok testLoaded.1 := by
  have hsaved : testSave = (testSave.1,.ok ()) := Prod.ext rfl rfl
  obtain ⟨localNode,hmem,hname,hload⟩ := loadConfig_saved hsaved
  have hlocal : ∀ node ∈ testNodes, node.name = ascii "node1" → node = loopback "node1" 8080 := by
    decide
  obtain rfl := hlocal localNode hmem hname
  exact hload.trans (if_pos (by decide +kernel))

/-- The loop of the test adds this node and removes it. -/
def testPeer : NodeInfo := loopback "lan" 8084

def testCalls : List MembershipCall :=
  [.addPeer testPeer .success,.removePeer testPeer .success]

theorem membership_inStep_testCalls :
    ∃ s, Run membershipStep (fun _ _ => True) testLoaded testCalls s ∧
      ∀ ks t, ks <+: testCalls → Run membershipStep (fun _ _ => True) testLoaded ks t →
        t.1.InStep t.2 := by
  have hcalls : ((membershipStep testLoaded (.addPeer testPeer .success)).bind fun s =>
    membershipStep s (.removePeer testPeer .success)).isSome := rfl
  obtain ⟨t,ht⟩ := Option.isSome_iff_exists.mp hcalls
  obtain ⟨s,hadd,hremove⟩ := Option.bind_eq_some_iff.mp ht
  have hfresh : testPeer.hash ∉ testLoaded.1.peers := by decide +kernel
  have hown : (membershipStep testLoaded (.addPeer testPeer .success)).map
      (fun s => firstEqualId s.1.json testPeer.hash) = some (some testPeer.hash) := by
    decide +kernel
  rw [hadd] at hown
  have hrun : Run membershipStep (fun s call => call.Keeps s) testLoaded testCalls t :=
    (Run.nil.snoc hfresh hadd).snoc (Option.some.inj hown) hremove
  have hany := hrun.mono fun _ _ _ => trivial
  exact ⟨t,hany,(membership_inStep_iff loadConfig_testSave hany).mpr hrun⟩

/-- Adding a member of the file again succeeds; its id is listed twice then, and the file cannot
be loaded any more. -/
theorem repeated_member_not_loaded :
    loadConfig testLoaded.2 configPath = .ok testLoaded.1 ∧
    ∃ s, membershipStep testLoaded (.addPeer (loopback "node2" 8081) .success) = some s ∧
      ¬s.1.InStep s.2 ∧ loadConfig s.2 s.1.path = .error (.error .repeatedPeer) := by
  refine ⟨loadConfig_testSave,?_⟩
  have hadd : (membershipStep testLoaded (.addPeer (loopback "node2" 8081) .success)).isSome := rfl
  obtain ⟨s,hs⟩ := Option.isSome_iff_exists.mp hadd
  obtain ⟨sound,hstep⟩ := loadConfig_inStep loadConfig_testSave
  obtain ⟨entries,describes,_,_⟩ := hstep.entries sound
  obtain rfl : savedEntries testNodes = entries := listed_savedConfig.unique describes.listed
  have hresult : testLoaded.1.addPeer testLoaded.2 .success (loopback "node2" 8081) =
    (s.1,s.2,.ok ()) := membershipStep_eq_some hs
  obtain ⟨saved,_⟩ := LoadedConfig.addPeer_eq_ok describes hresult
  have hrepeated : ¬((savedEntries testNodes ++
    [((loopback "node2" 8081).hash,loopback "node2" 8081)]).map Prod.fst).Nodup := by
    decide +kernel
  refine ⟨s,hs,fun h => hrepeated (saved.inStep_iff.mp h).1,?_⟩
  exact saved.load.trans (if_neg hrepeated)

end Examples

end Foskv.Raft
