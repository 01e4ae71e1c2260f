import Foskv.Generic.Separators
import Foskv.Rpc.Messages

/-! The commands of the client's prompt: `Put`, `Get`, `Delete` and `Exit` in one line. -/
namespace Foskv.KVCommand
open Generic

def space : UInt8 := 32

def newline : UInt8 := 10

def opPut : Bytes := ascii "Put "

def opGet : Bytes := ascii "Get "

def opDelete : Bytes := ascii "Delete "

def opExit : Bytes := ascii "Exit"

inductive Op
  | unknown
  | put
  | get
  | delete
  | exit
  deriving DecidableEq, Repr

structure Args where
  op : Op
  key : Bytes
  value : Bytes
  deriving DecidableEq, Repr

def Args.unknown : Args := ⟨.unknown,[],[]⟩

/-- `string_view::substr`, which throws beyond the end; without a count it goes to the end. -/
def substr (s : Bytes) (pos : ℕ) (count : Option ℕ) : Option Bytes :=
  if s.length < pos then none
  else
    match count with
    | none => some (s.drop pos)
    | some count => some ((s.drop pos).take count)

def parsePut (cmd : Bytes) : Option Args :=
  match cmd.idxOf? space,lastIdxOf? space cmd with
  | some firstSpacePos,some secondSpacePos =>
    if firstSpacePos = secondSpacePos then some .unknown
    else do
      let key ← substr cmd (firstSpacePos + 1) (some (secondSpacePos - firstSpacePos - 1))
      let value ← substr cmd (secondSpacePos + 1) none
      return if key.isEmpty ∨ value.isEmpty then .unknown else ⟨.put,key,value⟩
  | _,_ => some .unknown

/-- The common text of `parse_get` and `parse_delete`; without a space `npos + 1` is 0. -/
def parseKey (op : Op) (cmd : Bytes) : Option Args := do
  let key ← substr cmd ((cmd.idxOf? space).elim 0 (· + 1)) none
  return if key.isEmpty then .unknown else ⟨op,key,[]⟩

def parseGet : Bytes → Option Args := parseKey .get

def parseDelete : Bytes → Option Args := parseKey .delete

/-- `none` is an exception. -/
def parse (cmd : Bytes) : Option Args := do
  let cmd ← (cmd.idxOf? newline).elim (some cmd) fun pos => substr cmd 0 (some pos)
  if opPut.isPrefixOf cmd then parsePut cmd
  else if opGet.isPrefixOf cmd then parseGet cmd
  else if opDelete.isPrefixOf cmd then parseDelete cmd
  else if opExit.isPrefixOf cmd then some ⟨.exit,[],[]⟩
  else some .unknown

/-- The part before the first line break. -/
def line (cmd : Bytes) : Bytes := cmd.takeWhile (· ≠ newline)

/-- How the commands are spelled. Keys may have spaces, values not. -/
inductive Spells (line : Bytes) : Args → Prop
  | put {key value : Bytes} (hline : line = opPut ++ (key ++ space :: value)) (hkey : key ≠ [])
      (hvalue : value ≠ []) (hspace : space ∉ value) : Spells line ⟨.put,key,value⟩
  | get {key : Bytes} (hline : line = opGet ++ key) (hkey : key ≠ []) : Spells line ⟨.get,key,[]⟩
  | delete {key : Bytes} (hline : line = opDelete ++ key) (hkey : key ≠ []) :
      Spells line ⟨.delete,key,[]⟩
  | exit (hline : opExit <+: line) : Spells line ⟨.exit,[],[]⟩

/-- What a line of the operation starts with. -/
def Op.keyword : Op → Bytes
  | .unknown => []
  | .put => opPut
  | .get => opGet
  | .delete => opDelete
  | .exit => opExit

def print (args : Args) : Bytes :=
  match args.op with
  | .put => opPut ++ (args.key ++ space :: args.value)
  | op => op.keyword ++ args.key

/-- A `Put`, `Get` or `Delete` that fits in one line. -/
def Args.Printable (args : Args) : Prop :=
  args.key ≠ [] ∧ newline ∉ args.key ∧ newline ∉ args.value ∧
    (args.op = .put ∧ args.value ≠ [] ∧ space ∉ args.value ∨
      (args.op = .get ∨ args.op = .delete) ∧ args.value = [])

section Lines
variable {l : Bytes} {args args' : Args} {op : Op}

/-- No keyword starts with another one. -/
theorem Op.keyword_inj {op op' : Op} (hop : op ≠ .unknown) (hop' : op' ≠ .unknown)
    (h : op.keyword <+: op'.keyword) : op = op' := by
  revert h
  cases op <;> cases op' <;> first | exact fun _ => rfl | contradiction | decide

theorem Spells.keyword (h : Spells l args) : args.op.keyword <+: l ∧ args.op ≠ .unknown := by
  cases h with
  | put hline => exact ⟨hline ▸ List.prefix_append _ _,nofun⟩
  | get hline => exact ⟨hline ▸ List.prefix_append _ _,nofun⟩
  | delete hline => exact ⟨hline ▸ List.prefix_append _ _,nofun⟩
  | exit hline => exact ⟨hline,nofun⟩

/-- The line of a `Put` is cut at its last space. -/
theorem parsePut_append {key value : Bytes} (hvalue : space ∉ value) :
    parsePut (opPut ++ (key ++ space :: value)) =
      some (if key.isEmpty ∨ value.isEmpty then .unknown else ⟨.put,key,value⟩) := by
  have hfirst : (opPut ++ (key ++ space :: value)).idxOf? space = some 3 :=
    idxOf?_append_cons (show space ∉ ascii "Put" by decide)
  have hsecond : lastIdxOf? space (opPut ++ (key ++ space :: value)) = some (4 + key.length) := by
    rw [← List.append_assoc, lastIdxOf?_append_cons hvalue, List.length_append]
    rfl
  have hkey : substr (opPut ++ (key ++ space :: value)) (3 + 1) (some (4 + key.length - 3 - 1)) =
      some key := by
    have hcount : 4 + key.length - 3 - 1 = key.length := by omega
    rw [hcount]
    simp [substr, opPut, ascii]
  have hrest : substr (opPut ++ (key ++ space :: value)) (4 + key.length + 1) none =
      some value := by
    have hcut : opPut ++ (key ++ space :: value) = (opPut ++ key ++ [space]) ++ value := by simp
    have hlen : (opPut ++ key ++ [space]).length = 4 + key.length + 1 := by
      simp only [List.length_append, List.length_singleton]
      rfl
    rw [hcut, ← hlen, substr, if_neg (by simp), List.drop_left]
  simp only [parsePut, hfirst, hsecond]
  rw [if_neg (by omega), hkey, hrest]
  rfl

theorem parsePut_of_notMem {rest : Bytes} (h : space ∉ rest) :
    parsePut (opPut ++ rest) = some .unknown := by
  have hfirst : (opPut ++ rest).idxOf? space = some 3 :=
    idxOf?_append_cons (show space ∉ ascii "Put" by decide)
  have hsecond : lastIdxOf? space (opPut ++ rest) = some 3 :=
    lastIdxOf?_append_cons (l := ascii "Put") h
  simp [parsePut, hfirst, hsecond]

/-- The first space of a line is the one that its keyword ends with. -/
theorem parseKey_append {word key : Bytes} (h : space ∉ word) :
    parseKey op (word ++ space :: key) = some (if key.isEmpty then .unknown else ⟨op,key,[]⟩) := by
  have hkey : substr (word ++ space :: key) (word.length + 1) none = some key := by
    have hcut : word ++ space :: key = (word ++ [space]) ++ key := by simp
    have hlen : (word ++ [space]).length = word.length + 1 := by simp
    rw [hcut, ← hlen, substr, if_neg (by simp), List.drop_left]
  simp only [parseKey, idxOf?_append_cons h, Option.elim_some, hkey]
  rfl

theorem parseGet_append (key : Bytes) :
    parseGet (opGet ++ key) = some (if key.isEmpty then .unknown else ⟨.get,key,[]⟩) :=
  parseKey_append (show space ∉ ascii "Get" by decide)

theorem parseDelete_append (key : Bytes) :
    parseDelete (opDelete ++ key) = some (if key.isEmpty then .unknown else ⟨.delete,key,[]⟩) :=
  parseKey_append (show space ∉ ascii "Delete" by decide)

theorem parse_line (cmd : Bytes) :
    (cmd.idxOf? newline).elim (some cmd) (fun pos => substr cmd 0 (some pos)) =
      some (line cmd) := by
  rw [line, takeWhile_eq_of_idxOf?]
  cases cmd.idxOf? newline <;> simp [substr]

/-- The branch of `parse` for a line of the operation. -/
def Op.branch : Op → Bytes → Option Args
  | .unknown,_ => some .unknown
  | .put,line => parsePut line
  | .get,line => parseGet line
  | .delete,line => parseDelete line
  | .exit,_ => some ⟨.exit,[],[]⟩

theorem parse_eq_branch (cmd : Bytes) :
    parse cmd =
      if Op.put.keyword.isPrefixOf (line cmd) then Op.put.branch (line cmd)
      else if Op.get.keyword.isPrefixOf (line cmd) then Op.get.branch (line cmd)
      else if Op.delete.keyword.isPrefixOf (line cmd) then Op.delete.branch (line cmd)
      else if Op.exit.keyword.isPrefixOf (line cmd) then Op.exit.branch (line cmd)
      else some .unknown := by
  unfold parse
  rw [parse_line]
  rfl

/-- A line that starts with a keyword is left to that keyword's branch. -/
theorem parse_keyword {cmd : Bytes} (hop : op ≠ .unknown) (hl : op.keyword <+: line cmd) :
    parse cmd = op.branch (line cmd) := by
  have hself : op.keyword.isPrefixOf (line cmd) = true := List.isPrefixOf_iff_prefix.mpr hl
  have hother : ∀ op', op' ≠ .unknown → op' ≠ op → ¬op'.keyword.isPrefixOf (line cmd) = true := by
    intro op' hop' hne hpre
    obtain h | h := List.prefix_or_prefix_of_prefix (List.isPrefixOf_iff_prefix.mp hpre) hl
    · exact hne (Op.keyword_inj hop' hop h)
    · exact hne (Op.keyword_inj hop hop' h).symm
  rw [parse_eq_branch]
  cases op with
  | unknown => contradiction
  | put => rw [if_pos hself]
  | get => rw [if_neg (hother .put nofun nofun), if_pos hself]
  | delete =>
    rw [if_neg (hother .put nofun nofun), if_neg (hother .get nofun nofun), if_pos hself]
  | exit =>
    rw [if_neg (hother .put nofun nofun), if_neg (hother .get nofun nofun),
      if_neg (hother .delete nofun nofun), if_pos hself]

theorem parse_of_spells {cmd : Bytes} (h : Spells (line cmd) args) : parse cmd = some args := by
  rw [parse_keyword h.keyword.2 h.keyword.1]
  cases h with
  | put hline hkey hvalue hspace =>
    rw [hline]
    refine (parsePut_append hspace).trans ?_
    simp [hkey, hvalue]
  | get hline hkey =>
    rw [hline]
    refine (parseGet_append _).trans ?_
    simp [hkey]
  | delete hline hkey =>
    rw [hline]
    refine (parseDelete_append _).trans ?_
    simp [hkey]
  | exit hline => rfl

/-- Nothing comes of a line that has the keyword and no arguments for it. -/
theorem branch_of_not_spells (hl : op.keyword <+: l) (h : ∀ args, ¬Spells l args) :
    op.branch l = some .unknown := by
  obtain ⟨rest,rfl⟩ := hl
  cases op with
  | unknown => rfl
  | put =>
    by_cases hspace : space ∈ rest
    · obtain ⟨key,value,rfl,hvalue⟩ := exists_last_of_mem hspace
      refine (parsePut_append hvalue).trans ?_
      rw [if_pos]
      by_contra hboth
      simp only [List.isEmpty_iff, not_or] at hboth
      exact h _ (.put rfl hboth.1 hboth.2 hvalue)
    · exact parsePut_of_notMem hspace
  | get =>
    refine (parseGet_append rest).trans ?_
    rw [if_pos]
    by_contra hkey
    exact h _ (.get rfl (by simpa using hkey))
  | delete =>
    refine (parseDelete_append rest).trans ?_
    rw [if_pos]
    by_contra hkey
    exact h _ (.delete rfl (by simpa using hkey))
  | exit => exact absurd (.exit (List.prefix_append _ _)) (h _)

theorem parse_of_not_spells {cmd : Bytes} (h : ∀ args, ¬Spells (line cmd) args) :
    parse cmd = some .unknown := by
  rw [parse_eq_branch]
  split_ifs with hput hget hdelete hexit
  · exact branch_of_not_spells (List.isPrefixOf_iff_prefix.mp hput) h
  · exact branch_of_not_spells (List.isPrefixOf_iff_prefix.mp hget) h
  · exact branch_of_not_spells (List.isPrefixOf_iff_prefix.mp hdelete) h
  · exact branch_of_not_spells (List.isPrefixOf_iff_prefix.mp hexit) h
  · rfl

theorem parse_eq_some_iff {cmd : Bytes} : parse cmd = some args ↔
    Spells (line cmd) args ∨ args = .unknown ∧ ∀ args', ¬Spells (line cmd) args' := by
  by_cases h : ∃ args', Spells (line cmd) args'
  · obtain ⟨args',hargs'⟩ := h
    have hparse := parse_of_spells hargs'
    rw [hparse, Option.some_inj]
    refine ⟨fun he => .inl (he ▸ hargs'),?_⟩
    rintro (hargs | ⟨-,hnone⟩)
    · exact Option.some.inj (hparse.symm.trans (parse_of_spells hargs))
    · exact absurd hargs' (hnone args')
  · have hnone : ∀ args', ¬Spells (line cmd) args' := not_exists.mp h
    rw [parse_of_not_spells hnone, Option.some_inj]
    refine ⟨fun he => .inr ⟨he.symm,hnone⟩,?_⟩
    rintro (hargs | ⟨he,-⟩)
    · exact absurd hargs (hnone args)
    · exact he.symm

theorem print_of_spells (h : Spells l args) (hop : args.op ≠ .exit) : print args = l := by
  cases h with
  | put hline => exact hline.symm
  | get hline => exact hline.symm
  | delete hline => exact hline.symm
  | exit => exact absurd rfl hop

theorem line_print (h : args.Printable) : line (print args) = print args := by
  obtain ⟨-,hkey,hvalue,hop⟩ := h
  have hnone : newline ∉ print args := by
    obtain ⟨hop,-,-⟩ | ⟨hop | hop,-⟩ := hop <;> rw [print, hop]
    · simp only [List.mem_append, List.mem_cons, not_or]
      exact ⟨by decide,hkey,by decide,hvalue⟩
    · exact List.not_mem_append (by decide) hkey
    · exact List.not_mem_append (by decide) hkey
  exact List.takeWhile_eq_self_iff.mpr fun c hc => decide_eq_true fun he => hnone (he ▸ hc)

theorem spells_print (h : args.Printable) : Spells (print args) args := by
  obtain ⟨hkey,-,-,⟨hop,hvalue,hspace⟩ | ⟨hop | hop,hvalue⟩⟩ := h
  all_goals
    obtain ⟨op,key,value⟩ := args
    subst hop
  · exact .put rfl hkey hvalue hspace
  · subst hvalue
    exact .get rfl hkey
  · subst hvalue
    exact .delete rfl hkey

/-- What `parse` reads is how the first line is spelled, with nothing for any other line; printing
what was read gives the line back, and reading what was printed the command. -/
theorem parse_grammar (cmd : Bytes) (args : Args) :
    (parse cmd = some args ↔
      Spells (line cmd) args ∨ args = .unknown ∧ ∀ args', ¬Spells (line cmd) args') ∧
    (parse cmd = some args → args.op ∈ [Op.put,.get,.delete] → print args = line cmd) ∧
    (args.Printable → parse (print args) = some args) := by
  refine ⟨parse_eq_some_iff,fun hparse hop => ?_,fun h => ?_⟩
  · obtain hspells | ⟨rfl,-⟩ := parse_eq_some_iff.mp hparse
    · exact print_of_spells hspells fun he => by simp [he] at hop
    · simp [Args.unknown] at hop
  · apply parse_of_spells
    rw [line_print h]
    exact spells_print h

/-- The key has the spaces. -/
example : parse (ascii "Put a b c\nx") = some ⟨.put,ascii "a b",ascii "c"⟩ := by decide

end Lines
end Foskv.KVCommand
