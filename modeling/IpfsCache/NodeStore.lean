import IpfsCache.Node
import IpfsCache.Lib.Program

/-! Node::store. The program asks add_op to store a block; the view it shows meanwhile
is the node as the other coroutines see it, some hashes already filled in. -/
namespace IpfsCache

/-- How a call of Node::store ends. A failure below the top level leaves it as the exception
thrown when the Json that `or_throw<Json>` returns is converted to a Hash. -/
inductive StoreOutcome where
  | stored (hash : Hash)
  | error (ec : ErrorCode)
  | exception
  deriving DecidableEq

abbrev StoreProgram := Program Value (Except ErrorCode Hash) Node (Node × StoreOutcome)

def jsonKey (i : NodeId) : StdString :=
  match i with
  | ⊤ => ⟨[]⟩
  | some (k : Key) => k.cStr

namespace Node

def storeValue (i : NodeId) (value : Value) (json : Json) : Json :=
  if i = ⊤ then json else json.setField (jsonKey i) valueField value

mutual
def store (cfg : Config) : Node → StoreProgram
  | ⟨es⟩ => storeLoop cfg [] .null es

def storeLoop (cfg : Config) (stored : Entries) (json : Json) : Entries → StoreProgram
  | [] => .await (cfg.json.dump json) ⟨stored⟩ fun
    | .ok hash => .done (⟨stored⟩,.stored hash)
    | .error ec => .done (⟨stored⟩,.error ec)
  | (i,⟨value,child,hash⟩) :: rest =>
    let json := storeValue i value json
    if hash.isEmpty then
      match child with
      | none => storeLoop cfg (stored ++ [(i,⟨value,none,hash⟩)]) json rest
      | some c =>
        c.store cfg |>.bind
          (fun
            | (c',.stored hash') =>
              storeLoop cfg (stored ++ [(i,⟨value,some c',hash'⟩)])
                (json.setField (jsonKey i) childField hash') rest
            | (c',_) => .done (⟨stored ++ (i,⟨value,some c',hash⟩) :: rest⟩,.exception))
          (fun view => ⟨stored ++ (i,⟨value,some view,hash⟩) :: rest⟩)
    else
      storeLoop cfg (stored ++ [(i,⟨value,child,hash⟩)]) (json.setField (jsonKey i) childField hash) rest
end

end Node
end IpfsCache
