import Foskv.Generic.Frames
import Foskv.Generic.JsonText
import Foskv.Raft.ConfigLoad

/-! A configuration saved by the static `save` and loaded again. The member ids are digests of
name, host and port put together without separators, so the two agree exactly on the sets in
which no two nodes have the same bytes. -/
namespace Foskv.Raft
open Generic

theorem getUInt64_toNat (n : UInt64) :
    (Json.integer n.toNat).getUInt64 = (.ok n : Attempt UInt64) := by
  have h : UInt64.ofInt n.toNat = n := by
    apply UInt64.toNat.inj
    have := n.toNat_lt
    simp only [UInt64.ofInt, UInt64.toNat_ofNat']
    omega
  rw [Json.getUInt64, h]

theorem getUInt16_toNat (n : UInt16) :
    (Json.integer n.toNat).getUInt16 = (.ok n : Attempt UInt16) := by
  have h : UInt16.ofInt n.toNat = n := by
    apply UInt16.toNat.inj
    have := n.toNat_lt
    simp only [UInt16.ofInt, UInt16.toNat_ofNat']
    omega
  rw [Json.getUInt16, h]

/-- An unsigned number of at most 64 bits is in the range of a parser. -/
theorem canonical_toNat {n : ℕ} (h : n < 2^64) : (Json.integer n).Canonical :=
  .integer ⟨by omega,by omega⟩

theorem keys_entry_nodup : [memberIdKey,nameKey,hostKey,portKey].Nodup := by decide

section Saved

variable [ConfigLibraries]
open ConfigLibraries

theorem child_entry_memberId (node : NodeInfo) :
    node.entry.child memberIdKey = (.ok (.integer node.hash.toNat) : Attempt Json) :=
  Json.child_record keys_entry_nodup rfl

theorem reads_entry (node : NodeInfo) : Reads node.entry (node.hash,node) := by
  have hname : node.entry.child nameKey = (.ok (.string node.name) : Attempt Json) :=
    Json.child_record keys_entry_nodup rfl
  have hhost : node.entry.child hostKey = (.ok (.string node.host) : Attempt Json) :=
    Json.child_record keys_entry_nodup rfl
  have hport : node.entry.child portKey = (.ok (.integer node.port.toNat) : Attempt Json) :=
    Json.child_record keys_entry_nodup rfl
  unfold Reads readNode
  simp only [child_entry_memberId, hname, hhost, hport, bind, Except.bind, getUInt64_toNat,
    getUInt16_toNat, Json.getString]
  rfl

theorem canonical_entry (node : NodeInfo) : node.entry.Canonical := by
  apply Json.canonical_record
  simp only [List.forall_mem_cons, List.not_mem_nil, false_imp_iff, implies_true, and_true]
  exact ⟨canonical_toNat node.hash.toNat_lt,.string _,.string _,
    canonical_toNat (node.port.toNat_lt.trans (by decide))⟩

theorem forall₂_reads_entry (nodes : List NodeInfo) :
    List.Forall₂ Reads (nodes.map NodeInfo.entry) (nodes.map fun node => (node.hash,node)) := by
  rw [List.forall₂_map_left_iff, List.forall₂_map_right_iff]
  exact List.forall₂_same.mpr fun node _ => reads_entry node

/-- The value that the static `save` writes is one that a parser builds. -/
theorem canonical_configJson (clusterId : UInt64) (name : Bytes) (localNode : NodeInfo)
    (nodes : List NodeInfo) :
    (configJson clusterId name localNode (nodes.map NodeInfo.entry)).Canonical := by
  apply Json.canonical_record
  simp only [List.forall_mem_cons, List.not_mem_nil, false_imp_iff, implies_true, and_true]
  refine ⟨canonical_toNat clusterId.toNat_lt,canonical_toNat localNode.hash.toNat_lt,.string _,
    .string _,canonical_toNat (localNode.port.toNat_lt.trans (by decide)),.array ?_⟩
  exact List.forall_mem_map.mpr fun node _ => canonical_entry node

/-- What the loop over `node_infos` has collected at its end. -/
theorem foldlM_collect {name : Bytes} {nodes : List NodeInfo} {acc acc' : Collected}
    (h : nodes.foldlM (collect name) acc = .ok acc') :
    (∀ node ∈ nodes, validAddr node.host node.port = true) ∧
      acc'.nodes = acc.nodes ++ nodes.map NodeInfo.entry ∧
      ∀ node, acc'.localNode = some node →
        node ∈ nodes ∧ node.name = name ∨ acc.localNode = some node := by
  induction nodes generalizing acc with
  | nil =>
    obtain rfl := Except.ok.inj h
    exact ⟨by simp,by simp,fun _ hn => .inr hn⟩
  | cons n nodes ih =>
    obtain ⟨acc'',hstep,hrest⟩ := bind_eq_ok.mp (List.foldlM_cons.symm.trans h)
    have hvalid : validAddr n.host n.port = true := by
      by_contra hinvalid
      simp [collect, hinvalid] at hstep
    rw [collect, if_pos hvalid] at hstep
    obtain rfl := Except.ok.inj hstep
    obtain ⟨hall,hnodes,hlocal⟩ := ih hrest
    refine ⟨List.forall_mem_cons.mpr ⟨hvalid,hall⟩,by simp [hnodes],fun node hnode => ?_⟩
    rcases hlocal node hnode with ⟨hmem,hname⟩ | hlocal
    · exact .inl ⟨List.mem_cons_of_mem n hmem,hname⟩
    · -- the node was taken in this step, or before it
      dsimp only at hlocal
      split_ifs at hlocal with hname
      · obtain rfl := Option.some.inj hlocal
        exact .inl ⟨List.mem_cons_self ..,hname⟩
      · exact .inr hlocal

/-- What a successful static `save` has written. -/
theorem saveConfig_eq_ok {fs fs' : FileSystem} {io : IoOutcome} {path : Path} {clusterId : UInt64}
    {name : Bytes} {nodes : List NodeInfo}
    (h : saveConfig fs io path clusterId name nodes = (fs',.ok ())) :
    ∃ localNode ∈ nodes, localNode.name = name ∧
      (∀ node ∈ nodes, validAddr node.host node.port = true) ∧ ∃ text,
        dump (configJson clusterId name localNode (nodes.map NodeInfo.entry)) = some text ∧
        fs' path = some text := by
  unfold saveConfig at h
  split_ifs at h with hdirectories hopened
  · simp at h
  · simp at h
  cases hcollect : nodes.foldlM (collect name) ⟨[],none⟩ with
  | error e => simp [hcollect] at h
  | ok acc =>
    obtain ⟨entries,localNode⟩ := acc
    obtain ⟨hvalid,rfl,hlocal⟩ := foldlM_collect hcollect
    cases localNode with
    | none => simp [hcollect] at h
    | some localNode =>
      simp only [hcollect] at h
      split at h
      · simp at h
      · next text hdump =>
        obtain ⟨hmem,hname⟩ := (hlocal localNode rfl).resolve_right nofun
        refine ⟨localNode,hmem,hname,hvalid,text,hdump,?_⟩
        unfold writeAll at h
        split at h
        · obtain rfl := (Prod.mk.inj h).1
          exact Function.update_self ..
        · simp at h

/-- The entries that `load` reads of a saved set of nodes. -/
def savedEntries (nodes : List NodeInfo) : List (UInt64 × NodeInfo) :=
  nodes.map fun node => (node.hash,node)

theorem keys_savedEntries (nodes : List NodeInfo) :
    (savedEntries nodes).map Prod.fst = nodes.map NodeInfo.hash := by
  simp [savedEntries, Function.comp_def]

/-- The configuration in a file that the static `save` has written. -/
def savedConfig (path : Path) (clusterId : UInt64) (name : Bytes) (localNode : NodeInfo)
    (nodes : List NodeInfo) : LoadedConfig :=
  ⟨clusterId,localNode.hash,name,(localNode.host,localNode.port),.ofEntries (savedEntries nodes),
    path,configJson clusterId name localNode (nodes.map NodeInfo.entry)⟩

section Root

variable {path : Path} {clusterId : UInt64} {name : Bytes} {localNode : NodeInfo}
  {nodes : List NodeInfo}

theorem field?_configJson {key : Bytes} {entries : List Json} :
    (configJson clusterId name localNode entries).field? key =
      [(clusterIdKey,Json.integer clusterId.toNat),(memberIdKey,.integer localNode.hash.toNat),
        (nameKey,.string name),(hostKey,.string localNode.host),
        (portKey,.integer localNode.port.toNat),(nodesKey,.array entries)].lookup key := by
  apply Json.field?_record
  show [clusterIdKey,memberIdKey,nameKey,hostKey,portKey,nodesKey].Nodup
  decide

theorem header_savedConfig (valid : validAddr localNode.host localNode.port = true) :
    Header (savedConfig path clusterId name localNode nodes).json
      (savedConfig path clusterId name localNode nodes) where
  clusterId := ⟨_,field?_configJson.trans rfl,getUInt64_toNat clusterId⟩
  memberId := ⟨_,field?_configJson.trans rfl,getUInt64_toNat localNode.hash⟩
  name := ⟨_,field?_configJson.trans rfl,rfl⟩
  host := ⟨_,field?_configJson.trans rfl,rfl⟩
  port := ⟨_,field?_configJson.trans rfl,getUInt16_toNat localNode.port⟩
  valid := valid

theorem listed_savedConfig :
    Listed (savedConfig path clusterId name localNode nodes).json (savedEntries nodes) :=
  ⟨_,field?_configJson.trans rfl,forall₂_reads_entry nodes⟩

end Root

/-- Loading a saved configuration either gives it back or finds a digest twice. -/
theorem loadConfig_saved {fs fs' : FileSystem} {io : IoOutcome} {path : Path} {clusterId : UInt64}
    {name : Bytes} {nodes : List NodeInfo}
    (saved : saveConfig fs io path clusterId name nodes = (fs',.ok ())) :
    ∃ localNode ∈ nodes, localNode.name = name ∧ loadConfig fs' path =
      if (nodes.map NodeInfo.hash).Nodup then .ok (savedConfig path clusterId name localNode nodes)
      else .error (.error .repeatedPeer) := by
  obtain ⟨localNode,hmem,hname,hvalid,text,hdump,hfile⟩ := saveConfig_eq_ok saved
  have hdescribes : (savedConfig path clusterId name localNode nodes).Describes
      (savedEntries nodes) := by
    constructor
    case canonical => exact canonical_configJson clusterId name localNode nodes
    case header => exact header_savedConfig (hvalid localNode hmem)
    case listed => exact listed_savedConfig
    case addressed => exact List.forall_mem_map.mpr fun node hnode => hvalid node hnode
  refine ⟨localNode,hmem,hname,?_⟩
  rw [← keys_savedEntries]
  exact loadConfig_stored hdescribes hdump hfile

/-- The configuration has the cluster id, the local node and for every node one peer, and no other
peers. -/
structure Restores (clusterId : UInt64) (name : Bytes) (nodes : List NodeInfo)
    (cfg : LoadedConfig) : Prop where
  cluster : cfg.clusterId = clusterId
  localName : cfg.name = name
  localId : ∃ node ∈ nodes, node.name = name ∧ cfg.memberId = node.hash
  peers : ∀ node ∈ nodes, ∃! id, cfg.peers.lookup id = some node
  others : ∀ id node, cfg.peers.lookup id = some node → node ∈ nodes

theorem restores_savedConfig {path : Path} {clusterId : UInt64} {name : Bytes}
    {localNode : NodeInfo} {nodes : List NodeInfo} (hlocal : localNode ∈ nodes)
    (hname : localNode.name = name) (hnodup : (nodes.map NodeInfo.hash).Nodup) :
    Restores clusterId name nodes (savedConfig path clusterId name localNode nodes) := by
  have hlookup {id : UInt64} {node : NodeInfo} :
      (PeerMap.ofEntries (savedEntries nodes)).lookup id = some node ↔
        node ∈ nodes ∧ node.hash = id := by
    rw [PeerMap.lookup_ofEntries (by rwa [keys_savedEntries])]
    simp only [savedEntries, List.mem_map, Prod.mk.injEq]
    constructor
    · rintro ⟨_,hmem,hid,rfl⟩
      exact ⟨hmem,hid⟩
    · rintro ⟨hmem,hid⟩
      exact ⟨node,hmem,hid,rfl⟩
  constructor
  case cluster => rfl
  case localName => rfl
  case localId => exact ⟨localNode,hlocal,hname,rfl⟩
  case peers => exact fun node hnode =>
    ⟨node.hash,hlookup.mpr ⟨hnode,rfl⟩,fun id hid => (hlookup.mp hid).2.symm⟩
  case others => exact fun id node hnode => (hlookup.mp hnode).1

/-- A set of nodes comes back from its file exactly if no two of them have the same bytes of name,
host and port in a row. -/
theorem saveConfig_loadConfig_iff {fs fs' : FileSystem} {io : IoOutcome} {path : Path}
    {clusterId : UInt64} {name : Bytes} {nodes : List NodeInfo} (different : nodes.Nodup)
    (digests : ∀ n ∈ nodes, ∀ m ∈ nodes, xxh3 n.hashInput = xxh3 m.hashInput →
      n.hashInput = m.hashInput)
    (saved : saveConfig fs io path clusterId name nodes = (fs',.ok ())) :
    (∃ cfg, loadConfig fs' path = .ok cfg ∧ Restores clusterId name nodes cfg) ↔
      ∀ n ∈ nodes, ∀ m ∈ nodes, n.hashInput = m.hashInput → n = m := by
  obtain ⟨localNode,hlocal,hname,hload⟩ := loadConfig_saved saved
  have hinj : (nodes.map NodeInfo.hash).Nodup ↔
      ∀ n ∈ nodes, ∀ m ∈ nodes, n.hashInput = m.hashInput → n = m := by
    constructor
    · intro hnodup n hn m hm hinput
      exact List.inj_on_of_nodup_map hnodup hn hm (congrArg xxh3 hinput)
    · exact fun hinput => different.map_on fun n hn m hm hhash =>
        hinput n hn m hm (digests n hn m hm hhash)
  rw [hload, ← hinj]
  constructor
  · rintro ⟨cfg,hcfg,_⟩
    by_contra hrepeated
    simp [hrepeated] at hcfg
  · intro hnodup
    exact ⟨_,if_pos hnodup,restores_savedConfig hlocal hname hnodup⟩

end Saved

/-! Concrete libraries: the digest of 9 to 16 bytes, dotted IPv4 addresses and the JSON text. -/
section TextLibraries

def littleEndian (bytes : Bytes) : ℕ := Frames.ofBigEndian bytes.reverse

/-- The lower 64 bits. -/
def low64 (n : ℕ) : ℕ := n % 2^64

/-- XXH3 on an input of 9 to 16 bytes; the constants come from its default secret. -/
def xxh3Short (input : Bytes) : UInt64 :=
  let low := littleEndian (input.take 8) ^^^ 0x6782737bea4239b9
  let high := littleEndian (input.drop (input.length - 8)) ^^^ 0xaf56bc3b0996523a
  let swapped := littleEndian (Frames.bigEndian 8 low)
  let folded := low64 (low*high) ^^^ (low*high/2^64)
  let acc := low64 (input.length + swapped + high + folded)
  let mixed := low64 ((acc ^^^ acc/2^37) * 0x165667919E3779F9)
  UInt64.ofNat (mixed ^^^ mixed/2^32)

/-- One of the four numbers of an address. -/
def isOctet (part : Bytes) : Bool :=
  part.all Json.isDigit ∧ (part = ascii "0" ∨ part.head? ≠ some 48) ∧
    (Json.readDecimal part).any fun r => r.1 < 256

def dottedQuad (host : Bytes) : Bool :=
  (host.splitOn 46).length = 4 ∧ (host.splitOn 46).all isOctet

@[reducible] def textLibraries : ConfigLibraries where
  xxh3 := xxh3Short
  validAddr host _ := dottedQuad host
  dump := Json.print 0
  parse := Json.readText
  canonical_parse := Json.canonical_readText
  parse_dump hcanonical := Json.readText_print hcanonical

end TextLibraries

section Examples

attribute [local instance] textLibraries

def loopback (name : String) (port : UInt16) : NodeInfo := ⟨ascii name,ascii "127.0.0.1",port⟩

def configPath : Path := ⟨[],ascii "config.json"⟩

/-- The nodes of `raft_config_test.cpp`. -/
def testNodes : List NodeInfo :=
  [loopback "node1" 8080,loopback "node2" 8081,loopback "node3" 8082]

def testSave : FileSystem × Attempt Unit :=
  saveConfig (fun _ => none) .success configPath 0 (ascii "node1") testNodes

theorem saveConfig_loadConfig_testNodes :
    testNodes.Nodup ∧ testSave.2 = .ok () ∧ ∃ cfg, loadConfig testSave.1 configPath = .ok cfg ∧
      Restores 0 (ascii "node1") testNodes cfg := by
  have hnodup : testNodes.Nodup := by decide
  have hdigests : ∀ n ∈ testNodes, ∀ m ∈ testNodes,
      ConfigLibraries.xxh3 n.hashInput = ConfigLibraries.xxh3 m.hashInput →
        n.hashInput = m.hashInput := by decide +kernel
  have hsaved : testSave = (testSave.1,.ok ()) := Prod.ext rfl rfl
  have hinputs : ∀ n ∈ testNodes, ∀ m ∈ testNodes, n.hashInput = m.hashInput → n = m := by
    decide +kernel
  exact ⟨hnodup,rfl,(saveConfig_loadConfig_iff hnodup hdigests hsaved).mpr hinputs⟩

/-- Two nodes whose name and host differ only in where the one ends and the other begins. -/
def shiftedNodes : List NodeInfo :=
  [⟨ascii "n1",ascii "1.1.1.1",8080⟩,⟨ascii "n",ascii "11.1.1.1",8080⟩]

def shiftedSave : FileSystem × Attempt Unit :=
  saveConfig (fun _ => none) .success configPath 0 (ascii "n1") shiftedNodes

/-- Different nodes that are saved and cannot be loaded, with a digest that separates different
bytes. -/
theorem shiftedNodes_not_loaded :
    shiftedNodes.Nodup ∧ (∀ n ∈ shiftedNodes, ∀ m ∈ shiftedNodes,
      ConfigLibraries.xxh3 n.hashInput = ConfigLibraries.xxh3 m.hashInput →
        n.hashInput = m.hashInput) ∧
    shiftedSave.2 = .ok () ∧
    loadConfig shiftedSave.1 configPath = .error (.error .repeatedPeer) := by
  refine ⟨by decide,by decide +kernel,rfl,?_⟩
  have hsaved : shiftedSave = (shiftedSave.1,.ok ()) := Prod.ext rfl rfl
  obtain ⟨localNode,_,_,hload⟩ := loadConfig_saved hsaved
  have hrepeated : ¬(shiftedNodes.map NodeInfo.hash).Nodup := by decide +kernel
  rw [hload, if_neg hrepeated]

end Examples

end Foskv.Raft
