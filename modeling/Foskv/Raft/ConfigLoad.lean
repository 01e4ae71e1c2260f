import Foskv.Raft.Cluster
import Foskv.Raft.ConfigFile

/-! What a configuration file has to hold for `load` to succeed, and what it loads then. -/
namespace Foskv.Raft
open Generic

/-- A field of the root as a conversion reads it. -/
def HoldsField {α : Type} (root : Json) (key : Bytes) (get : Json → Attempt α) (a : α) : Prop :=
  ∃ value, root.field? key = some value ∧ get value = .ok a

theorem HoldsField.congr {α : Type} {root root' : Json} {key : Bytes} {get : Json → Attempt α}
    {a : α} (h : HoldsField root key get a) (hfield : root'.field? key = root.field? key) :
    HoldsField root' key get a := by
  unfold HoldsField
  rw [hfield]
  exact h

theorem HoldsField.readField {α : Type} {root : Json} {key : Bytes} {get : Json → Attempt α}
    {a : α} (h : HoldsField root key get a) : readField key get root = .ok (a,root) := by
  obtain ⟨value,hv,ha⟩ := h
  exact bind_eq_ok.mpr ⟨_,Json.subscript_of_field? hv,bind_eq_ok.mpr ⟨a,ha,rfl⟩⟩

/-- A conversion that does not take null reads a field only where it is. -/
theorem readField_eq_ok {α : Type} {key : Bytes} {get : Json → Attempt α} {root root' : Json}
    {a : α} (hnull : ∀ a, get .null ≠ .ok a) :
    readField key get root = .ok (a,root') ↔ root' = root ∧ HoldsField root key get a := by
  unfold readField HoldsField
  rw [bind_eq_ok]
  constructor
  · rintro ⟨⟨root'',value⟩,hsub,h⟩
    obtain ⟨b,hb,he⟩ := bind_eq_ok.mp h
    obtain ⟨rfl,rfl⟩ := Prod.mk.inj (Except.ok.inj he)
    cases root with
    | null =>
      obtain ⟨rfl,rfl⟩ := Prod.mk.inj (Except.ok.inj hsub)
      exact absurd hb (hnull b)
    | object fields =>
      cases hv : fields.lookup key with
      | none =>
        obtain ⟨rfl,rfl⟩ : Json.object (Json.insertField key .null fields) = root'' ∧
          Json.null = value := by simpa [Json.subscript,hv] using hsub
        exact absurd hb (hnull b)
      | some v =>
        obtain ⟨rfl,rfl⟩ : Json.object fields = root'' ∧ v = value := by
          simpa [Json.subscript,hv] using hsub
        exact ⟨rfl,v,hv,hb⟩
    | _ => simp [Json.subscript] at hsub
  · rintro ⟨rfl,h⟩
    exact bind_eq_ok.mp (HoldsField.readField h)

/-- The peers that the entries of a file stand for. -/
def PeerMap.ofEntries (entries : List (UInt64 × NodeInfo)) : PeerMap :=
  (entries.map fun e => (⟨e.1,e.2⟩ : (_ : UInt64) × NodeInfo)).toFinmap

theorem PeerMap.keys_entries (entries : List (UInt64 × NodeInfo)) :
    (entries.map fun e => (⟨e.1,e.2⟩ : (_ : UInt64) × NodeInfo)).keys = entries.map Prod.fst := by
  simp [List.keys]

theorem PeerMap.mem_ofEntries {entries : List (UInt64 × NodeInfo)} {id : UInt64} :
    id ∈ ofEntries entries ↔ id ∈ entries.map Prod.fst := by
  rw [← Finmap.lookup_isSome, ofEntries, Finmap.dlookup_list_toFinmap, List.dlookup_isSome,
    keys_entries]

theorem PeerMap.lookup_ofEntries {entries : List (UInt64 × NodeInfo)}
    (h : (entries.map Prod.fst).Nodup) {id : UInt64} {info : NodeInfo} :
    (ofEntries entries).lookup id = some info ↔ (id,info) ∈ entries := by
  have hkeys : (entries.map fun e => (⟨e.1,e.2⟩ : (_ : UInt64) × NodeInfo)).NodupKeys := by
    rw [List.NodupKeys, keys_entries]
    exact h
  rw [ofEntries, Finmap.dlookup_list_toFinmap]
  refine (List.mem_dlookup_iff hkeys).trans ?_
  simp only [List.mem_map, Sigma.mk.injEq, heq_eq_eq]
  constructor
  · rintro ⟨⟨_,_⟩,he,rfl,rfl⟩
    exact he
  · exact fun he => ⟨_,he,rfl,rfl⟩

/-- Entries with different member ids are the lookups of their peers. -/
theorem PeerMap.eq_ofEntries_iff {entries : List (UInt64 × NodeInfo)}
    (h : (entries.map Prod.fst).Nodup) {peers : PeerMap} :
    peers = ofEntries entries ↔ ∀ id info, (id,info) ∈ entries ↔ peers.lookup id = some info := by
  constructor
  · rintro rfl id info
    exact (lookup_ofEntries h).symm
  · intro hall
    apply Finmap.ext_lookup
    intro id
    ext info
    rw [lookup_ofEntries h]
    exact (hall id info).symm

theorem nodup_keys_concat {entries : List (UInt64 × NodeInfo)} {entry : UInt64 × NodeInfo} :
    ((entries ++ [entry]).map Prod.fst).Nodup ↔
      (entries.map Prod.fst).Nodup ∧ entry.1 ∉ entries.map Prod.fst := by
  rw [List.map_append, List.nodup_append, List.map_singleton]
  refine and_congr_right fun _ => ⟨fun h hmem => h.2 _ hmem _ (by simp) rfl,fun h => ?_⟩
  refine ⟨List.nodup_singleton _,fun a ha b hb => ?_⟩
  rw [List.mem_singleton.mp hb]
  exact fun he => h (he ▸ ha)

theorem PeerMap.ofEntries_concat {entries : List (UInt64 × NodeInfo)} {id : UInt64}
    {info : NodeInfo} (h : ((entries ++ [(id,info)]).map Prod.fst).Nodup) :
    ofEntries (entries ++ [(id,info)]) = (ofEntries entries).insert id info := by
  obtain ⟨hbefore,hnew⟩ := nodup_keys_concat.mp h
  have hfresh : ∀ i, (id,i) ∉ entries := fun i hi => hnew (List.mem_map.mpr ⟨_,hi,rfl⟩)
  refine ((eq_ofEntries_iff h).mpr fun k i => ?_).symm
  rw [List.mem_append, List.mem_singleton]
  by_cases hk : k = id
  · subst hk
    simp [hfresh i, eq_comm]
  · rw [Finmap.lookup_insert_of_ne _ hk, lookup_ofEntries hbefore]
    simp [hk]

variable [ConfigLibraries]
open ConfigLibraries

/-- An element of `json["nodes"]` is read as an entry. -/
def Reads (node : Json) (entry : UInt64 × NodeInfo) : Prop := readNode node = .ok entry

/-- `json["nodes"]` is there and its elements are read as these entries. -/
def Listed (root : Json) (entries : List (UInt64 × NodeInfo)) : Prop :=
  ∃ nodes, root.field? nodesKey = some nodes ∧ List.Forall₂ Reads nodes.elements entries

/-- The addresses of the entries are accepted. -/
def Addressed (entries : List (UInt64 × NodeInfo)) : Prop :=
  ∀ e ∈ entries, validAddr e.2.host e.2.port = true

theorem loadPeer_of_reads {peers : PeerMap} {node : Json} {entry : UInt64 × NodeInfo}
    (h : Reads node entry) (valid : validAddr entry.2.host entry.2.port = true) :
    loadPeer peers node = if entry.1 ∈ peers then .error (.error .repeatedPeer)
      else .ok (peers.insert entry.1 entry.2) := by
  have hread : readNode node = .ok entry := h
  unfold loadPeer
  rw [hread]
  by_cases hmem : entry.1 ∈ peers
  · simp [hmem, bind, Except.bind]
  · simp [hmem, bind, Except.bind, createPeer, valid, PeerMap.emplace, pure, Except.pure]

/-- The loop over the nodes succeeds exactly if no member id comes twice. -/
theorem foldlM_loadPeer {nodes : List Json} {entries done : List (UInt64 × NodeInfo)}
    (reads : List.Forall₂ Reads nodes entries) (addressed : Addressed entries)
    (hdone : (done.map Prod.fst).Nodup) :
    nodes.foldlM loadPeer (.ofEntries done) =
      if ((done ++ entries).map Prod.fst).Nodup then .ok (.ofEntries (done ++ entries))
      else .error (.error .repeatedPeer) := by
  induction reads generalizing done with
  | nil =>
    rw [List.append_nil, if_pos hdone]
    rfl
  | @cons node entry nodes entries hread reads ih =>
    obtain ⟨hvalid,addressed⟩ := List.forall_mem_cons.mp addressed
    rw [List.foldlM_cons, loadPeer_of_reads hread hvalid]
    by_cases hmem : entry.1 ∈ done.map Prod.fst
    · have hrepeated : ¬((done ++ entry :: entries).map Prod.fst).Nodup := fun h => by
        rw [List.map_append, List.nodup_append] at h
        exact h.2.2 _ hmem _ (by simp) rfl
      rw [if_pos (PeerMap.mem_ofEntries.mpr hmem), if_neg hrepeated]
      rfl
    · have hnodup := nodup_keys_concat.mpr ⟨hdone,hmem⟩
      rw [if_neg fun h => hmem (PeerMap.mem_ofEntries.mp h),
        ← PeerMap.ofEntries_concat hnodup, List.append_cons done entry entries]
      exact ih addressed hnodup

theorem foldlM_loadPeer_empty {nodes : List Json} {entries : List (UInt64 × NodeInfo)}
    (reads : List.Forall₂ Reads nodes entries) (addressed : Addressed entries) :
    nodes.foldlM loadPeer ∅ = if (entries.map Prod.fst).Nodup then .ok (.ofEntries entries)
      else .error (.error .repeatedPeer) := by
  have hdone : (([] : List (UInt64 × NodeInfo)).map Prod.fst).Nodup := List.nodup_nil
  exact foldlM_loadPeer reads addressed hdone

theorem loadPeer_eq_ok {peers peers' : PeerMap} {node : Json}
    (h : loadPeer peers node = .ok peers') :
    ∃ entry, Reads node entry ∧ validAddr entry.2.host entry.2.port = true := by
  obtain ⟨entry,hread,h⟩ := bind_eq_ok.mp h
  refine ⟨entry,hread,?_⟩
  by_contra hvalid
  by_cases hmem : entry.1 ∈ peers <;> simp [hmem, createPeer, hvalid] at h

/-- What the loop has read. -/
theorem entries_of_foldlM {nodes : List Json} {peers peers' : PeerMap}
    (h : nodes.foldlM loadPeer peers = .ok peers') :
    ∃ entries, List.Forall₂ Reads nodes entries ∧ Addressed entries := by
  induction nodes generalizing peers with
  | nil => exact ⟨[],.nil,by simp [Addressed]⟩
  | cons node nodes ih =>
    rw [List.foldlM_cons, bind_eq_ok] at h
    obtain ⟨peers'',hload,hrest⟩ := h
    obtain ⟨entry,hread,hvalid⟩ := loadPeer_eq_ok hload
    obtain ⟨entries,hreads,haddressed⟩ := ih hrest
    exact ⟨entry :: entries,.cons hread hreads,List.forall_mem_cons.mpr ⟨hvalid,haddressed⟩⟩

/-- The root holds the fields of the configuration other than its peers. -/
structure Header (root : Json) (cfg : LoadedConfig) : Prop where
  clusterId : HoldsField root clusterIdKey Json.getUInt64 cfg.clusterId
  memberId : HoldsField root memberIdKey Json.getUInt64 cfg.memberId
  name : HoldsField root nameKey Json.getString cfg.name
  host : HoldsField root hostKey Json.getString cfg.addr.1
  port : HoldsField root portKey Json.getUInt16 cfg.addr.2
  valid : validAddr cfg.addr.1 cfg.addr.2 = true

/-- The header does not depend on the list of nodes. -/
theorem Header.congr {root root' : Json} {cfg : LoadedConfig} (h : Header root cfg)
    (hother : ∀ key, key ≠ nodesKey → root'.field? key = root.field? key) : Header root' cfg :=
  ⟨h.clusterId.congr (hother _ (by decide)),h.memberId.congr (hother _ (by decide)),
    h.name.congr (hother _ (by decide)),h.host.congr (hother _ (by decide)),
    h.port.congr (hother _ (by decide)),h.valid⟩

/-- `load` succeeds exactly on a file with a readable header and readable, different peers. -/
theorem loadConfig_eq_ok {fs : FileSystem} {path : Path} {cfg : LoadedConfig} :
    loadConfig fs path = .ok cfg ↔ cfg.path = path ∧ ∃ text root nodes, fs path = some text ∧
      parse text = some root ∧ Header root cfg ∧
      root.subscript nodesKey = (.ok (cfg.json,nodes) : Attempt (Json × Json)) ∧
      nodes.elements.foldlM loadPeer ∅ = .ok cfg.peers := by
  have elim_eq_ok {α : Type} {o : Option α} {e : Failure ConfigError} {a : α} :
      o.elim (.error e) .ok = (.ok a : Attempt α) ↔ o = some a := by cases o <;> simp
  have noUInt64 (a : UInt64) : (Json.null.getUInt64 : Attempt UInt64) ≠ .ok a := nofun
  have noUInt16 (a : UInt16) : (Json.null.getUInt16 : Attempt UInt16) ≠ .ok a := nofun
  have noString (a : Bytes) : (Json.null.getString : Attempt Bytes) ≠ .ok a := nofun
  unfold loadConfig
  simp only [bind_eq_ok,elim_eq_ok,Prod.exists,readField_eq_ok noUInt64,readField_eq_ok noUInt16,
    readField_eq_ok noString]
  constructor
  · rintro ⟨text,htext,root,hroot,clusterId,_,⟨rfl,hcluster⟩,memberId,_,⟨rfl,hmember⟩,name,_,
      ⟨rfl,hname⟩,host,_,⟨rfl,hhost⟩,port,_,⟨rfl,hport⟩,h⟩
    split at h
    · simp at h
    · next hvalid =>
      simp only [bind_eq_ok,Prod.exists] at h
      obtain ⟨json,nodes,hsub,peers,hpeers,he⟩ := h
      obtain rfl := Except.ok.inj he
      refine ⟨rfl,text,_,nodes,htext,hroot,?_,hsub,hpeers⟩
      exact ⟨hcluster,hmember,hname,hhost,hport,by simpa using hvalid⟩
  · rintro ⟨rfl,text,root,nodes,htext,hroot,header,hsub,hpeers⟩
    refine ⟨text,htext,root,hroot,cfg.clusterId,root,⟨rfl,header.clusterId⟩,cfg.memberId,root,
      ⟨rfl,header.memberId⟩,cfg.name,root,⟨rfl,header.name⟩,cfg.addr.1,root,⟨rfl,header.host⟩,
      cfg.addr.2,root,⟨rfl,header.port⟩,?_⟩
    simp only [header.valid,Bool.not_true,Bool.false_eq_true,↓reduceIte,bind_eq_ok,Prod.exists]
    exact ⟨cfg.json,nodes,hsub,cfg.peers,hpeers,rfl⟩

/-- The value of the configuration has its header and these entries. -/
structure LoadedConfig.Describes (cfg : LoadedConfig) (entries : List (UInt64 × NodeInfo)) :
    Prop where
  canonical : cfg.json.Canonical
  header : Header cfg.json cfg
  listed : Listed cfg.json entries
  addressed : Addressed entries

/-- Loading a file whose value is known either gives its entries or finds a member id twice. -/
theorem loadConfig_stored {fs : FileSystem} {cfg : LoadedConfig} {text : Bytes}
    {entries : List (UInt64 × NodeInfo)} (h : cfg.Describes entries)
    (hdump : dump cfg.json = some text) (hfile : fs cfg.path = some text) :
    loadConfig fs cfg.path =
      if (entries.map Prod.fst).Nodup then .ok {cfg with peers := .ofEntries entries}
      else .error (.error .repeatedPeer) := by
  obtain ⟨nodes,hnodes,hreads⟩ := h.listed
  have hparse := parse_dump h.canonical hdump
  have hsub : cfg.json.subscript nodesKey = (.ok (cfg.json,nodes) : Attempt (Json × Json)) :=
    Json.subscript_of_field? hnodes
  have hfold := foldlM_loadPeer_empty hreads h.addressed
  have header := h.header
  unfold loadConfig
  simp only [hfile, hparse, Option.elim_some, header.clusterId.readField, header.memberId.readField,
    header.name.readField, header.host.readField, header.port.readField, header.valid, hsub, hfold,
    bind, Except.bind, Bool.not_true, Bool.false_eq_true, ↓reduceIte]
  split_ifs <;> rfl

/-- A loaded configuration has different entries, and they are its peers. -/
theorem loadConfig_describes {fs : FileSystem} {path : Path} {cfg : LoadedConfig}
    (h : loadConfig fs path = .ok cfg) : ∃ entries, cfg.Describes entries ∧
      (entries.map Prod.fst).Nodup ∧ cfg.peers = .ofEntries entries := by
  obtain ⟨_,text,root,nodes,_,hroot,header,hsub,hfold⟩ := loadConfig_eq_ok.mp h
  obtain ⟨hnodes,hother,hcanonical⟩ := Json.subscript_eq_ok hsub
  obtain ⟨entries,hreads,haddressed⟩ := entries_of_foldlM hfold
  rw [foldlM_loadPeer_empty hreads haddressed] at hfold
  split_ifs at hfold with hnodup
  refine ⟨entries,?_,hnodup,(Except.ok.inj hfold).symm⟩
  exact ⟨hcanonical (canonical_parse hroot),header.congr hother,⟨nodes,hnodes,hreads⟩,haddressed⟩

/-- A member as the nodes of a cluster know it. -/
def peerOf (entry : UInt64 × NodeInfo) : Peer := ⟨entry.1.toNat,entry.2.host,entry.2.port.toNat⟩

/-- The peers of a loaded configuration are the members of a cluster: their ids are different. -/
theorem loadConfig_clusterConfig {fs : FileSystem} {path : Path} {cfg : LoadedConfig}
    (h : loadConfig fs path = .ok cfg) : ∃ (C : ClusterConfig) (entries : _),
      C.clusterId = cfg.clusterId.toNat ∧ C.peers = entries.map peerOf ∧
        cfg.peers = .ofEntries entries := by
  obtain ⟨entries,_,hnodup,hpeers⟩ := loadConfig_describes h
  have hdistinct : ((entries.map peerOf).map Peer.memberId).Nodup := by
    have hids : (entries.map peerOf).map Peer.memberId =
        (entries.map Prod.fst).map UInt64.toNat := by simp [peerOf, Function.comp_def]
    rw [hids]
    exact hnodup.map fun _ _ => UInt64.toNat.inj
  exact ⟨⟨cfg.clusterId.toNat,entries.map peerOf,hdistinct⟩,entries,rfl,rfl,hpeers⟩

end Foskv.Raft
