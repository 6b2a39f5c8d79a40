import TimeLake.Library.LastWins
import TimeLake.Library.Split
import TimeLake.Selfmon.Scanner

/-!
The nodes of a cluster, and the list of them that an operator can write down. An entry is
`id=role@cluster_addr|data_addr`; of two entries with one id the later one counts. A list
that was written from nodes is read as these nodes, by id.
-/

namespace TimeLake.Membership

open TimeLake.Library
open TimeLake.Ingest (trim isWhiteSpace)

section Nodes

inductive Role where
  | all | router | ingester | querier | compactor
  deriving DecidableEq, Repr

inductive ClusterError where
  | unknownRole (s : String)
  | malformedPeer (s : String)
  deriving DecidableEq, Repr

def Role.asStr : Role → String
  | .all => "all"
  | .router => "router"
  | .ingester => "ingester"
  | .querier => "querier"
  | .compactor => "compactor"

def Role.parse (s : String) : Except ClusterError Role :=
  match String.ofList ((trim s.toList).map Char.toLower) with
  | "" | "all" => .ok .all
  | "router" => .ok .router
  | "ingester" => .ok .ingester
  | "querier" => .ok .querier
  | "compactor" => .ok .compactor
  | other => .error (.unknownRole other)

theorem Role.parse_asStr (r : Role) : Role.parse r.asStr = .ok r := by
  cases r <;> decide

/-- A node as discovery reports it. -/
structure NodeInfo where
  id : String
  role : Role
  address : String
  dataAddress : String
  deriving DecidableEq, Repr

end Nodes

section Listing

/-- The cluster address, and the data address behind a pipe if there is one. -/
def splitAddresses (addrs : List Char) : List Char × List Char :=
  match cutAt '|' addrs with
  | some (address, data) => (trim address, trim data)
  | none => (trim addrs, [])

def parsePeer (entry : List Char) : Except ClusterError NodeInfo :=
  match cutAt '=' entry with
  | none => .error (.malformedPeer (String.ofList entry))
  | some (id, rest) =>
      match cutAt '@' rest with
      | none => .error (.malformedPeer (String.ofList entry))
      | some (role, addrs) =>
          if trim id = [] ∨ (splitAddresses addrs).1 = [] then
            .error (.malformedPeer (String.ofList entry))
          else
            (Role.parse (String.ofList role)).map fun role =>
              ⟨String.ofList (trim id), role, String.ofList (splitAddresses addrs).1,
                String.ofList (splitAddresses addrs).2⟩

/-- The entries go into a map by id. -/
def parsePeers (s : String) : Except ClusterError (List NodeInfo) :=
  ((((s.toList.splitOn ',').map trim).filter (!·.isEmpty)).mapM parsePeer).map
    (sortKeepLast (·.id))

def NodeInfo.entry (n : NodeInfo) : List Char :=
  n.id.toList ++ '=' :: (n.role.asStr.toList ++ '@' :: (n.address.toList ++
    if n.dataAddress.toList = [] then [] else '|' :: n.dataAddress.toList))

/-- `TIMELAKE_PEERS` of these nodes. -/
def listing (nodes : List NodeInfo) : String :=
  String.ofList ([','].intercalate (nodes.map NodeInfo.entry))

/-- No blank at either end. -/
structure Bare (text : List Char) : Prop where
  head : ∀ c ∈ text.head?, isWhiteSpace c = false
  last : ∀ c ∈ text.getLast?, isWhiteSpace c = false

/-- A node that an entry can be written of. -/
structure Listable (n : NodeInfo) : Prop where
  named : n.id.toList ≠ []
  addressed : n.address.toList ≠ []
  idBare : Bare n.id.toList
  addressBare : Bare n.address.toList
  dataBare : Bare n.dataAddress.toList
  noEquals : '=' ∉ n.id.toList
  noPipe : '|' ∉ n.address.toList
  noComma : ',' ∉ n.id.toList ∧ ',' ∉ n.address.toList ∧ ',' ∉ n.dataAddress.toList

theorem Bare.trim {text : List Char} (h : Bare text) : trim text = text :=
  Selfmon.trim_self h.head h.last

variable {n : NodeInfo}

theorem splitAddresses_entry (h : Listable n) :
    splitAddresses (n.address.toList ++
      if n.dataAddress.toList = [] then [] else '|' :: n.dataAddress.toList) =
      (n.address.toList, n.dataAddress.toList) := by
  by_cases hdata : n.dataAddress.toList = []
  · rw [if_pos hdata, List.append_nil, splitAddresses, cutAt_eq_none.mpr h.noPipe]
    simp only [h.addressBare.trim, hdata]
  · rw [if_neg hdata, splitAddresses, cutAt_append h.noPipe]
    simp only [h.addressBare.trim, h.dataBare.trim]

theorem parsePeer_entry (h : Listable n) : parsePeer n.entry = .ok n := by
  have hrole : '@' ∉ n.role.asStr.toList := by
    cases n.role <;> decide
  rw [parsePeer, NodeInfo.entry, cutAt_append h.noEquals]
  simp only
  rw [cutAt_append hrole]
  simp only
  rw [splitAddresses_entry h, h.idBare.trim, if_neg (not_or.mpr ⟨h.named, h.addressed⟩)]
  simp only [String.ofList_toList, Role.parse_asStr]
  rfl

theorem entry_bare (h : Listable n) : Bare n.entry where
  head := by
    intro c hc
    rw [NodeInfo.entry, List.head?_append_of_ne_nil _ h.named] at hc
    exact h.idBare.head c hc
  last := by
    have hend : n.entry.getLast? =
        if n.dataAddress.toList = [] then n.address.toList.getLast?
        else n.dataAddress.toList.getLast? := by
      by_cases hdata : n.dataAddress.toList = []
      · have hlast := List.getLast?_eq_some_getLast h.addressed
        simp [NodeInfo.entry, hdata, List.getLast?_append, List.getLast?_cons, hlast]
      · have hlast := List.getLast?_eq_some_getLast hdata
        simp [NodeInfo.entry, hdata, List.getLast?_append, List.getLast?_cons, hlast]
    intro c hc
    rw [hend] at hc
    split at hc
    · exact h.addressBare.last c hc
    · exact h.dataBare.last c hc

theorem comma_notMem_entry (h : Listable n) : ',' ∉ n.entry := by
  obtain ⟨hid, haddress, hdata⟩ := h.noComma
  have hrole : ',' ∉ n.role.asStr.toList := by
    cases n.role <;> decide
  have htail : ',' ∉ if n.dataAddress.toList = [] then [] else '|' :: n.dataAddress.toList := by
    split
    · exact List.not_mem_nil
    · simp [hdata]
  simp only [NodeInfo.entry, List.mem_append, List.mem_cons, not_or]
  exact ⟨hid, by decide, hrole, by decide, haddress, htail⟩

theorem entry_ne_nil (n : NodeInfo) : n.entry ≠ [] := by
  simp [NodeInfo.entry]

theorem mapM_parsePeer {nodes : List NodeInfo} (h : ∀ n ∈ nodes, Listable n) :
    (nodes.map NodeInfo.entry).mapM parsePeer = .ok nodes := by
  induction nodes with
  | nil => rfl
  | cons n rest ih =>
      rw [List.map_cons, List.mapM_cons, parsePeer_entry (h n List.mem_cons_self),
        ih fun m hm => h m (List.mem_cons_of_mem _ hm)]
      rfl

/-- A list written from nodes is read as these nodes, by id, the later of equal ids. -/
theorem parsePeers_listing {nodes : List NodeInfo} (h : ∀ n ∈ nodes, Listable n) :
    parsePeers (listing nodes) = .ok (sortKeepLast (·.id) nodes) := by
  have hentries : (((listing nodes).toList.splitOn ',').map trim).filter (!·.isEmpty) =
      nodes.map NodeInfo.entry := by
    rw [listing, String.toList_ofList]
    cases nodes with
    | nil => rfl
    | cons n rest =>
        have hcommas : ∀ l ∈ (n :: rest).map NodeInfo.entry, ',' ∉ l := by
          intro l hl
          obtain ⟨m, hm, rfl⟩ := List.mem_map.mp hl
          exact comma_notMem_entry (h m hm)
        rw [List.splitOn_intercalate ',' hcommas (by simp), List.map_map]
        have htrim : ((n :: rest).map (trim ∘ NodeInfo.entry)) =
            (n :: rest).map NodeInfo.entry := by
          refine List.map_congr_left ?_
          intro m hm
          exact (entry_bare (h m hm)).trim
        rw [htrim, List.filter_eq_self]
        intro l hl
        obtain ⟨m, _, rfl⟩ := List.mem_map.mp hl
        simpa using entry_ne_nil m
  rw [parsePeers, hentries, mapM_parsePeer h]
  rfl

end Listing

end TimeLake.Membership
