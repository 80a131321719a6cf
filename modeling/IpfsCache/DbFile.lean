import IpfsCache.BTree

/-! The file in which a database remembers its root id: path_to_db, load_db and save_db. -/
namespace IpfsCache

def btreeNodeSize : Nat := 64
def cidSize : Nat := 46

structure Files where
  content : StdString → Option StdString
  writable : StdString → Bool

def pathToDb (pathToRepo ipns : StdString) : StdString :=
  ⟨pathToRepo.bytes ++ [47,105,112,102,115,95,99,97,99,104,101,95,100,98,46] ++ ipns.bytes⟩

def isSpace (b : Fin 256) : Bool := b = 32 || (9 ≤ b && b ≤ 13)

def firstWord (text : StdString) : StdString :=
  ⟨(text.bytes.dropWhile isSpace).takeWhile (! isSpace ·)⟩

def looksLikeCid (word : StdString) : Bool := word.bytes.take 2 = [81,109] && word.bytes.length = cidSize

def loadDb {σ : Type} (cfg : Config) (S : Storage σ) (files : Files) (pathToRepo ipns : StdString) (map : BTree)
    (st : σ) : BTree × σ :=
  match files.content (pathToDb pathToRepo ipns) with
  | none => (map,st)
  | some text => if looksLikeCid (firstWord text) then map.load cfg S (firstWord text) st else (map,st)

def saveDb (pathToRepo ipns ipfs : StdString) (files : Files) : Files :=
  let path := pathToDb pathToRepo ipns
  if files.writable path then { files with content := Function.update files.content path (some ipfs) } else files

def IsCid (id : StdString) : Prop := looksLikeCid id = true ∧ ∀ b ∈ id.bytes, isSpace b = false
instance (id) : Decidable (IsCid id) :=
  @instDecidableAnd _ _ (instDecidableEqBool _ _) (List.decidableBAll (isSpace · = false) id.bytes)

theorem solidWord {id : StdString} (solid : ∀ b ∈ id.bytes, isSpace b = false) : firstWord id = id := by
  have all : id.bytes.takeWhile (! isSpace ·) = id.bytes :=
    List.takeWhile_eq_self_iff.mpr fun b mem => by simp [solid b mem]
  have none_ : id.bytes.dropWhile isSpace = id.bytes := by
    cases same : id.bytes with
    | nil => rfl
    | cons b rest => rw [List.dropWhile_cons_of_neg (by simp [solid b (by simp [same])])]
  rw [firstWord,none_,all]

theorem IsCid.word {id : StdString} (h : IsCid id) : firstWord id = id := solidWord h.2

theorem emptyNoCid : looksLikeCid (firstWord ⟨[]⟩) = false := by decide

def filedId (files : Files) (pathToRepo ipns : StdString) : Option Hash :=
  (files.content (pathToDb pathToRepo ipns)).bind fun text =>
    if looksLikeCid (firstWord text) then some (firstWord text) else none

theorem cidProper {word : StdString} (cid : looksLikeCid word = true) : word.isEmpty = false := by
  rw [looksLikeCid,Bool.and_eq_true,decide_eq_true_eq,decide_eq_true_eq] at cid
  cases same : word.bytes with
  | nil =>
    have long := cid.2
    rw [same] at long
    cases long
  | cons b rest => rw [StdString.isEmpty,same]; rfl

theorem filedCid {files : Files} {pathToRepo ipns : StdString} {id : Hash}
    (filed : filedId files pathToRepo ipns = some id) :
    ∃ text, files.content (pathToDb pathToRepo ipns) = some text ∧ looksLikeCid (firstWord text) = true ∧
      id = firstWord text := by
  obtain ⟨text,there,same⟩ := Option.bind_eq_some_iff.mp filed
  split at same
  · rename_i cid
    exact ⟨text,there,cid,(Option.some.inj same).symm⟩
  · cases same

theorem saved {files : Files} {pathToRepo ipns : StdString} (id : StdString)
    (open_ : files.writable (pathToDb pathToRepo ipns) = true) :
    (saveDb pathToRepo ipns id files).content (pathToDb pathToRepo ipns) = some id ∧
      (saveDb pathToRepo ipns id files).writable = files.writable := by
  simp [saveDb,open_]

theorem loadedDb {σ : Type} (cfg : Config) (S : Storage σ) {files : Files} {pathToRepo ipns : StdString} (st : σ) :
    (∀ id, files.content (pathToDb pathToRepo ipns) = some id → IsCid id →
      loadDb cfg S files pathToRepo ipns .fresh st = (⟨some ⟨none,id⟩,[],false⟩,st)) ∧
    (files.content (pathToDb pathToRepo ipns) = some ⟨[]⟩ →
      loadDb cfg S files pathToRepo ipns .fresh st = (.fresh,st)) := by
  refine ⟨fun id here cid => ?_,fun here => ?_⟩
  · simp only [loadDb,here,cid.word,cid.1,if_true]
    rfl
  · simp only [loadDb,here,emptyNoCid,if_false,Bool.false_eq_true]

end IpfsCache
