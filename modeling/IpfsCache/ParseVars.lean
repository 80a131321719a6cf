import IpfsCache.Injecting

/-! The form that the injector example receives over HTTP: name=value parts with an ampersand
between them, which nothing decodes. -/
namespace IpfsCache
namespace ParseVars

def ampersand : Fin 256 := 38
def equals : Fin 256 := 61

def find (c : Fin 256) (range : List (Fin 256)) : List (Fin 256) × List (Fin 256) :=
  (range.takeWhile (· ≠ c),range.dropWhile (· ≠ c))

def parseKeyval (range : List (Fin 256)) : StdString × StdString :=
  let (name,p) := find equals range
  (⟨name⟩,match p with
    | [] => ⟨[]⟩
    | _ :: value => ⟨value⟩)

theorem findLess {c x : Fin 256} {b rest : List (Fin 256)} (after : (find c b).2 = x :: rest) :
    rest.length < b.length := by
  have less : (find c b).2.length ≤ b.length := (List.dropWhile_sublist _).length_le
  rw [after] at less
  exact less

def parseFrom (ret : List (StdString × StdString)) (b : List (Fin 256)) : List (StdString × StdString) :=
  let kv := parseKeyval (find ampersand b).1
  let ret := OrderedMap.insert kv.1 kv.2 ret
  match after : (find ampersand b).2 with
  | [] => ret
  | _ :: rest =>
    have : rest.length < b.length := findLess after
    parseFrom ret rest
termination_by b.length

def parseVars (vars : StdString) : List (StdString × StdString) := parseFrom [] vars.bytes

def value (name : StdString) (vars : List (StdString × StdString)) : StdString :=
  (OrderedMap.find name vars).getD ⟨[]⟩

def keyName : StdString := ⟨[107,101,121]⟩
def valueName : StdString := ⟨[118,97,108,117,101]⟩

inductive HttpStatus where
  | ok
  | badRequest
  deriving DecidableEq, Repr

structure Response where
  result : HttpStatus
  body : String
  deriving DecidableEq, Repr

variable {Ptime : Type}

/-- What serve does with a request: it refuses it, or it suspends in insert_content and goes
on with the error code that comes back. -/
inductive Serving (Ptime : Type) where
  | refuses (res : Response)
  | inserts (inj : Injector Ptime) (resume : Status → Option Response)

def respond (ec : Status) : Option Response :=
  match ec with
  | .error _ => none
  | .ok () => some ⟨.ok,"OK"⟩

def serve (body : StdString) (ts : Ptime) (inj : Injector Ptime) : Serving Ptime :=
  let vars := parseVars body
  let key := value keyName vars
  let value := value valueName vars
  if key.isEmpty || value.isEmpty then .refuses ⟨.badRequest,"FAIL"⟩
  else .inserts (inj.insertContent key value ts) respond

def pair (p : StdString × StdString) : List (Fin 256) := p.1.bytes ++ equals :: p.2.bytes

def form (vars : List (StdString × StdString)) : StdString := ⟨[ampersand].intercalate (vars.map pair)⟩

theorem freeAll {c : Fin 256} {a : List (Fin 256)} (free : c ∉ a) : ∀ x ∈ a, decide (x ≠ c) = true := by
  intro x mem
  simpa using fun same : x = c => free (same ▸ mem)

theorem findCut (c : Fin 256) {a : List (Fin 256)} (free : c ∉ a) (b : List (Fin 256)) :
    find c (a ++ c :: b) = (a,c :: b) := by
  rw [find,List.takeWhile_append_of_pos (freeAll free),List.dropWhile_append_of_pos (freeAll free)]
  simp

theorem findWhole (c : Fin 256) {a : List (Fin 256)} (free : c ∉ a) : find c a = (a,[]) := by
  rw [find,List.takeWhile_eq_self_iff.mpr (freeAll free),List.dropWhile_eq_nil_iff.mpr (freeAll free)]

theorem pairFree {p : StdString × StdString} (name : ampersand ∉ p.1.bytes) (value : ampersand ∉ p.2.bytes) :
    ampersand ∉ pair p := by
  rw [pair,List.mem_append,List.mem_cons,not_or,not_or]
  exact ⟨name,by decide,value⟩

theorem pairBack {p : StdString × StdString} (free : equals ∉ p.1.bytes) : parseKeyval (pair p) = p := by
  rw [parseKeyval,pair,findCut _ free]

theorem partsCut {b : List (Fin 256)} :
    b.splitOn ampersand = (find ampersand b).1 ::
      match (find ampersand b).2 with
      | [] => []
      | _ :: rest => rest.splitOn ampersand := by
  have free : ampersand ∉ (find ampersand b).1 := fun mem => by
    simpa using List.mem_takeWhile_imp mem
  have whole : (find ampersand b).1 ++ (find ampersand b).2 = b := List.takeWhile_append_dropWhile
  cases after : (find ampersand b).2 with
  | nil =>
    rw [after,List.append_nil] at whole
    rw [whole] at free ⊢
    exact List.splitOn_eq_singleton free
  | cons c rest =>
    have head := List.head?_dropWhile_not (fun x => decide (x ≠ ampersand)) b
    rw [show b.dropWhile (fun x => decide (x ≠ ampersand)) = c :: rest from after] at head
    obtain rfl : c = ampersand := by simpa using head
    conv_lhs => rw [← whole,after]
    exact List.splitOn_append_cons_self_of_not_mem free rest

theorem parseLast {ret : List (StdString × StdString)} {b : List (Fin 256)} (last : (find ampersand b).2 = []) :
    parseFrom ret b =
      OrderedMap.insert (parseKeyval (find ampersand b).1).1 (parseKeyval (find ampersand b).1).2 ret := by
  unfold parseFrom
  split
  · rfl
  · rename_i after
    cases last.symm.trans after

theorem parseNext {ret : List (StdString × StdString)} {b rest : List (Fin 256)} {c : Fin 256}
    (next : (find ampersand b).2 = c :: rest) :
    parseFrom ret b = parseFrom
      (OrderedMap.insert (parseKeyval (find ampersand b).1).1 (parseKeyval (find ampersand b).1).2 ret) rest := by
  conv_lhs => unfold parseFrom
  split
  · rename_i after
    cases next.symm.trans after
  · rename_i after
    cases next.symm.trans after
    rfl

theorem insertFirst (name : StdString) (kv : StdString × StdString) {ret : List (StdString × StdString)}
    (sorted : OrderedMap.Sorted ret) (parts : List (StdString × StdString)) :
    (OrderedMap.find name (OrderedMap.insert kv.1 kv.2 ret)).or (parts.lookup name) =
      (OrderedMap.find name ret).or ((kv :: parts).lookup name) := by
  rw [OrderedMap.findInsert _ _ _ sorted]
  obtain ⟨k,v⟩ := kv
  rw [List.lookup_cons]
  by_cases same : name = k
  · subst same
    cases OrderedMap.find name ret <;> simp
  · rw [if_neg same,beq_false_of_ne same]

theorem parsedFirst (name : StdString) (ret : List (StdString × StdString)) (b : List (Fin 256))
    (sorted : OrderedMap.Sorted ret) :
    OrderedMap.find name (parseFrom ret b) =
      (OrderedMap.find name ret).or (((b.splitOn ampersand).map parseKeyval).lookup name) := by
  induction ret, b using parseFrom.induct with
  | case1 ret b last =>
    rw [parseLast last,partsCut,last,List.map_cons,← insertFirst name _ sorted]
    simp
  | case2 ret b kv ret' c rest next _ ih =>
    rw [parseNext next,partsCut,next,List.map_cons,← insertFirst name _ sorted]
    exact ih (OrderedMap.insertSorted _ _ sorted)

/-- Under each name the map holds the value of the first part that has it; so a form whose
names and values hold no separator is read back. -/
theorem formReadBack (name : StdString) :
    (∀ body : StdString, OrderedMap.find name (parseVars body) =
      ((body.bytes.splitOn ampersand).map parseKeyval).lookup name) ∧
    ∀ vars : List (StdString × StdString), vars ≠ [] →
      (∀ p ∈ vars, equals ∉ p.1.bytes ∧ ampersand ∉ p.1.bytes) → (∀ p ∈ vars, ampersand ∉ p.2.bytes) →
      OrderedMap.find name (parseVars (form vars)) = vars.lookup name := by
  have parts (body : StdString) : OrderedMap.find name (parseVars body) =
      ((body.bytes.splitOn ampersand).map parseKeyval).lookup name :=
    parsedFirst name [] body.bytes List.Pairwise.nil
  refine ⟨parts,fun vars some_ names values => ?_⟩
  have free : ∀ part ∈ vars.map pair, ampersand ∉ part := fun part mem => by
    obtain ⟨p,inside,rfl⟩ := List.mem_map.mp mem
    exact pairFree (names p inside).2 (values p inside)
  have back : (vars.map pair).map parseKeyval = vars := by
    rw [List.map_map]
    exact (List.map_congr_left fun p mem => pairBack (names p mem).1).trans (List.map_id _)
  rw [parts,form,List.splitOn_intercalate ampersand free (by simpa using some_),back]

theorem formReadBackTwice : OrderedMap.find valueName (parseVars (form [(keyName,⟨[97]⟩),(valueName,⟨[98,61]⟩)])) =
    some ⟨[98,61]⟩ :=
  (formReadBack valueName).2 _ (by decide) (by decide) (by decide)

def upTo (s : StdString) : StdString := ⟨s.bytes.takeWhile (· ≠ ampersand)⟩

theorem upToSelf {s : StdString} : upTo s = s ↔ ampersand ∉ s.bytes := by
  constructor
  · intro same mem
    have inside : ampersand ∈ s.bytes.takeWhile (· ≠ ampersand) := by
      rw [show s.bytes.takeWhile (· ≠ ampersand) = s.bytes from congrArg StdString.bytes same]
      exact mem
    simpa using List.mem_takeWhile_imp inside
  · intro free
    have whole := findWhole ampersand free
    exact congrArg (fun p => StdString.mk p.1) whole

theorem firstPart (name : StdString) (clear : equals ∉ name.bytes) (free : ampersand ∉ name.bytes) (v : StdString) :
    ∃ more, ((pair (name,v)).splitOn ampersand).map parseKeyval = (name,upTo v) :: more := by
  have head : (find ampersand (pair (name,v))).1 = pair (name,upTo v) := by
    rw [find,pair,List.takeWhile_append_of_pos (freeAll free),List.takeWhile_cons_of_pos (by decide)]
    rfl
  rw [partsCut,List.map_cons,head,pairBack clear]
  exact ⟨_,rfl⟩

theorem formTwo (p q : StdString × StdString) : (form [p,q]).bytes = pair p ++ ampersand :: pair q := by
  simp [form]

theorem keyRead (k v : StdString) : value keyName (parseVars (form [(keyName,k),(valueName,v)])) = upTo k := by
  obtain ⟨more,first⟩ := firstPart keyName (by decide) (by decide) k
  have parts : (form [(keyName,k),(valueName,v)]).bytes.splitOn ampersand =
      (pair (keyName,k)).splitOn ampersand ++ (pair (valueName,v)).splitOn ampersand := by
    rw [formTwo,List.splitOn_append_cons_self]
  rw [value,parseVars,parsedFirst _ _ _ List.Pairwise.nil,parts,List.map_append,first,List.cons_append,
    List.lookup_cons_self]
  rfl

theorem valueRead {k : StdString} (free : ampersand ∉ k.bytes) (v : StdString) :
    value valueName (parseVars (form [(keyName,k),(valueName,v)])) = upTo v := by
  obtain ⟨more,first⟩ := firstPart valueName (by decide) (by decide) v
  have whole : ampersand ∉ pair (keyName,k) := pairFree (show ampersand ∉ keyName.bytes by decide) free
  have parts : (form [(keyName,k),(valueName,v)]).bytes.splitOn ampersand =
      pair (keyName,k) :: (pair (valueName,v)).splitOn ampersand := by
    rw [formTwo,List.splitOn_append_cons_self_of_not_mem whole]
  have back : parseKeyval (pair (keyName,k)) = (keyName,k) := pairBack (show equals ∉ keyName.bytes by decide)
  have other : (valueName == keyName) = false := beq_false_of_ne (by decide)
  rw [value,parseVars,parsedFirst _ _ _ List.Pairwise.nil,parts,List.map_cons,first,back,List.lookup_cons,other,
    List.lookup_cons_self]
  rfl

/-- The key and the value of a form arrive at the injector exactly when neither is empty and neither
has an ampersand; otherwise the request is refused or another pair is inserted. -/
theorem formServed (k v : StdString) (ts : Ptime) (inj : Injector Ptime) :
    serve (form [(keyName,k),(valueName,v)]) ts inj = .inserts (inj.insertContent k v ts) respond ↔
      k.isEmpty = false ∧ v.isEmpty = false ∧ ampersand ∉ k.bytes ∧ ampersand ∉ v.bytes := by
  rw [serve,keyRead]
  constructor
  · intro served
    split at served
    · cases served
    · rename_i given
      have calls := congrArg Injector.calls (Serving.inserts.inj served).1
      simp only [Injector.insertCalls] at calls
      have entry := List.cons.inj (List.append_cancel_left calls)
      have keys : upTo k = k := congrArg InsertEntry.key entry.1
      have values : value valueName (parseVars _) = v := congrArg InsertEntry.value entry.1
      have free := upToSelf.mp keys
      rw [valueRead free] at values given
      rw [keys,values,Bool.or_eq_true,not_or,Bool.not_eq_true,Bool.not_eq_true] at given
      exact ⟨given.1,given.2,free,upToSelf.mp values⟩
  · rintro ⟨key,some_,free,clean⟩
    rw [valueRead free,upToSelf.mpr free,upToSelf.mpr clean,key,some_]
    rfl

end ParseVars
end IpfsCache
