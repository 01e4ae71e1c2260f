import Foskv.Generic.Json
import Foskv.Rpc.Messages
import Mathlib.Data.Finmap

/-! The members of a cluster in their configuration file: `RaftConfig::save` and `load`, and the
calls that change the members of a loaded configuration. -/
namespace Foskv.Raft
open Generic

structure NodeInfo where
  name : Bytes
  host : Bytes
  port : UInt16
  deriving DecidableEq, Repr

/-- What the configuration takes from its libraries. Parsing undoes printing on the values that
parsing builds. -/
class ConfigLibraries where
  /-- The XXH3 digest of 64 bits. -/
  xxh3 : Bytes → UInt64
  /-- `SocketAddr::parse` accepts the host and port. -/
  validAddr : Bytes → UInt16 → Bool
  /-- `json.dump(4)`, or none if it throws. -/
  dump : Json → Option Bytes
  /-- `nlohmann::json::parse`, or none if it throws. -/
  parse : Bytes → Option Json
  canonical_parse : ∀ {text json}, parse text = some json → json.Canonical
  parse_dump : ∀ {json text}, json.Canonical → dump json = some text → parse text = some json

/-- The error codes of `RaftConfig`. -/
inductive ConfigError
  | errno
  | raftConfigFileOpenFailed
  | raftConfigFileWriteFailed
  | tempRaftConfigFileOpenFailed
  | tempRaftConfigFileWriteFailed
  | tempRaftConfigFileRenameFailed
  | invalidPeerAddress
  | invalidLocalAddress
  | invalidRpcServerAddress
  | localNodeNotFound
  | repeatedPeer
  | peerNotFound
  deriving DecidableEq, Repr

abbrev Attempt (α : Type) := Except (Failure ConfigError) α

/-- A path by the two parts that `parent_path` separates. -/
structure Path where
  parent : Bytes
  fileName : Bytes
  deriving DecidableEq, Repr

/-- `path_.parent_path()/"tmp"`. -/
def Path.temp (path : Path) : Path := ⟨path.parent,ascii "tmp"⟩

/-- The contents of the files there are. -/
abbrev FileSystem := Path → Option Bytes

/-- How the operating system answers a call that writes the configuration. -/
structure IoOutcome where
  directoriesMade : Bool
  opened : Bool
  /-- The bytes that reach the file when `write_all` fails. -/
  failsAfter : Option ℕ
  renamed : Bool

/-- Every step of writing the file succeeds. -/
def IoOutcome.success : IoOutcome := ⟨true,true,none,true⟩

/-- `write_all` to an emptied file, with the error code for a failure. -/
def writeAll (fs : FileSystem) (io : IoOutcome) (path : Path) (payload : Bytes)
    (code : ConfigError) : FileSystem × Attempt Unit :=
  match io.failsAfter with
  | none => (Function.update fs path (some payload),.ok ())
  | some n => (Function.update fs path (some (payload.take n)),.error (.error code))

/-- `kosio::io::rename`: a file renamed to itself stays. -/
def FileSystem.rename (fs : FileSystem) (source target : Path) : FileSystem :=
  Function.update (Function.update fs source none) target (fs source)

section Keys

def clusterIdKey : Bytes := ascii "cluster_id"
def memberIdKey : Bytes := ascii "member_id"
def nameKey : Bytes := ascii "name"
def hostKey : Bytes := ascii "host"
def portKey : Bytes := ascii "port"
def nodesKey : Bytes := ascii "nodes"

end Keys

variable [ConfigLibraries]
open ConfigLibraries

/-- The bytes that `NodeInfo::hash` feeds to the digest, the port in its byte order in memory. -/
def NodeInfo.hashInput (node : NodeInfo) : Bytes :=
  node.name ++ node.host ++ [node.port.toUInt8,(node.port >>> 8).toUInt8]

def NodeInfo.hash (node : NodeInfo) : UInt64 := xxh3 node.hashInput

/-- The `node_entry` of a node. -/
def NodeInfo.entry (node : NodeInfo) : Json :=
  .record [(memberIdKey,.integer node.hash.toNat),(nameKey,.string node.name),
    (hostKey,.string node.host),(portKey,.integer node.port.toNat)]

/-- `nodes_json` and the node that `local_member_id`, `local_host` and `local_port` are of. -/
structure Collected where
  nodes : List Json
  localNode : Option NodeInfo

/-- The loop body over `node_infos`. -/
def collect (name : Bytes) (acc : Collected) (node : NodeInfo) : Attempt Collected :=
  if validAddr node.host node.port then
    .ok ⟨acc.nodes ++ [node.entry],if node.name = name then some node else acc.localNode⟩
  else .error (.error .invalidPeerAddress)

/-- The value that the static `save` writes. -/
def configJson (clusterId : UInt64) (name : Bytes) (localNode : NodeInfo) (nodes : List Json) :
    Json :=
  .record [(clusterIdKey,.integer clusterId.toNat),(memberIdKey,.integer localNode.hash.toNat),
    (nameKey,.string name),(hostKey,.string localNode.host),
    (portKey,.integer localNode.port.toNat),(nodesKey,.array nodes)]

/-- The static `RaftConfig::save`; `nodes` are the `node_infos` in the order of their iteration.
Opening the file empties it. -/
def saveConfig (fs : FileSystem) (io : IoOutcome) (path : Path) (clusterId : UInt64)
    (name : Bytes) (nodes : List NodeInfo) : FileSystem × Attempt Unit :=
  if !io.directoriesMade then (fs,.error .thrown)
  else if !io.opened then (fs,.error (.error .raftConfigFileOpenFailed))
  else
    let emptied := Function.update fs path (some [])
    match nodes.foldlM (collect name) ⟨[],none⟩ with
    | .error e => (emptied,.error e)
    | .ok ⟨_,none⟩ => (emptied,.error (.error .localNodeNotFound))
    | .ok ⟨entries,some localNode⟩ =>
      match dump (configJson clusterId name localNode entries) with
      | none => (emptied,.error .thrown)
      | some payload => writeAll emptied io path payload .raftConfigFileWriteFailed

/-- `peers_`: the name, host and port of each peer under its member id. -/
abbrev PeerMap := Finmap fun _ : UInt64 => NodeInfo

/-- `peers_.emplace`, which keeps a peer that is there. -/
def PeerMap.emplace (peers : PeerMap) (memberId : UInt64) (peer : NodeInfo) : PeerMap :=
  if memberId ∈ peers then peers else Finmap.insert memberId peer peers

/-- `Peer::create`. -/
def createPeer (node : NodeInfo) : Attempt NodeInfo :=
  if validAddr node.host node.port then .ok node else .error (.error .invalidRpcServerAddress)

/-- A loaded `RaftConfig`. -/
structure LoadedConfig where
  clusterId : UInt64
  memberId : UInt64
  name : Bytes
  addr : Bytes × UInt16
  peers : PeerMap
  path : Path
  json : Json

/-- What `load` reads of an element of `json["nodes"]`. -/
def readNode (node : Json) : Attempt (UInt64 × NodeInfo) := do
  let memberId ← (← node.child memberIdKey).getUInt64
  let name ← (← node.child nameKey).getString
  let host ← (← node.child hostKey).getString
  let port ← (← node.child portKey).getUInt16
  return (memberId,⟨name,host,port⟩)

/-- The loop body over `json["nodes"]`. -/
def loadPeer (peers : PeerMap) (node : Json) : Attempt PeerMap := do
  let (memberId,info) ← readNode node
  if memberId ∈ peers then .error (.error .repeatedPeer)
  else return peers.emplace memberId (← createPeer info)

/-- A field of the root read by a conversion; the subscript may add the key. -/
def readField {α : Type} (key : Bytes) (get : Json → Attempt α) (json : Json) :
    Attempt (α × Json) := do
  let (json,value) ← json.subscript key
  return (← get value,json)

/-- `RaftConfig::load`. -/
def loadConfig (fs : FileSystem) (path : Path) : Attempt LoadedConfig := do
  let text ← (fs path).elim (.error (.error .errno)) .ok
  let json ← (parse text).elim (.error .thrown) .ok
  let (clusterId,json) ← readField clusterIdKey Json.getUInt64 json
  let (memberId,json) ← readField memberIdKey Json.getUInt64 json
  let (name,json) ← readField nameKey Json.getString json
  let (host,json) ← readField hostKey Json.getString json
  let (port,json) ← readField portKey Json.getUInt16 json
  if !validAddr host port then .error (.error .invalidLocalAddress)
  else
    let (json,nodes) ← json.subscript nodesKey
    let peers ← nodes.elements.foldlM loadPeer ∅
    return ⟨clusterId,memberId,name,(host,port),peers,path,json⟩

namespace LoadedConfig

/-- `RaftConfig::save` of a loaded configuration, through a temporary file. -/
def save (cfg : LoadedConfig) (fs : FileSystem) (io : IoOutcome) : FileSystem × Attempt Unit :=
  match dump cfg.json with
  | none => (fs,.error .thrown)
  | some payload =>
    if !io.opened then (fs,.error (.error .tempRaftConfigFileOpenFailed))
    else
      match writeAll fs io cfg.path.temp payload .tempRaftConfigFileWriteFailed with
      | (fs,.error e) => (fs,.error e)
      | (fs,.ok ()) =>
        if !io.renamed then (fs,.error (.error .tempRaftConfigFileRenameFailed))
        else (fs.rename cfg.path.temp cfg.path,.ok ())

/-- Change `json_["nodes"]` and save the configuration. -/
def editNodes (edit : Json → Attempt Json) (cfg : LoadedConfig) (fs : FileSystem)
    (io : IoOutcome) : LoadedConfig × FileSystem × Attempt Unit :=
  match cfg.json.subscript nodesKey with
  | .error e => (cfg,fs,.error e)
  | .ok (json,nodes) =>
    match edit nodes with
    | .error e => ({cfg with json := json},fs,.error e)
    | .ok nodes =>
      let cfg := {cfg with json := json.put nodesKey nodes}
      (cfg,cfg.save fs io)

def addPeer (cfg : LoadedConfig) (fs : FileSystem) (io : IoOutcome) (node : NodeInfo) :
    LoadedConfig × FileSystem × Attempt Unit :=
  match createPeer node with
  | .error e => (cfg,fs,.error e)
  | .ok peer =>
    editNodes (fun nodes => nodes.pushBack node.entry)
      {cfg with peers := cfg.peers.emplace node.hash peer} fs io

/-- `node["member_id"] == member_id`. -/
def hasMemberId (memberId : UInt64) (node : Json) : Attempt Bool := do
  return (← node.child memberIdKey).equalsUInt64 memberId

/-- `remove_peer` by member id. -/
def removePeerById (cfg : LoadedConfig) (fs : FileSystem) (io : IoOutcome) (memberId : UInt64) :
    LoadedConfig × FileSystem × Attempt Unit :=
  if memberId ∈ cfg.peers then
    editNodes (Json.eraseFirst (hasMemberId memberId))
      {cfg with peers := cfg.peers.erase memberId} fs io
  else (cfg,fs,.error (.error .peerNotFound))

/-- `remove_peer` by node, whose body is the same after its digest. -/
def removePeer (cfg : LoadedConfig) (fs : FileSystem) (io : IoOutcome) (node : NodeInfo) :
    LoadedConfig × FileSystem × Attempt Unit :=
  cfg.removePeerById fs io node.hash

end LoadedConfig

end Foskv.Raft
