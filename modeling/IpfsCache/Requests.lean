import IpfsCache.ContentAnswers
import IpfsCache.Service

/-! From Injector::insert_content to Client::get_content. Each name has an injector of its own; a
client goes from name to name and asks for urls. -/
namespace IpfsCache
namespace GetContents
variable {World Ptime σ : Type} {cfg : Config} {ipfs : Ipfs World} {R : World → Hash → Value → Prop}
  {content : Hash → Option Value} {dt : DateTime Ptime} {S : Storage σ}

def Sent (starts : StdString → InjectorDb World) (injectors : StdString → Service World Ptime) (ipns : StdString)
    (id : Hash) : Prop :=
  id ∈ (injectors ipns).db.republisher.calls.map Prod.fst ∧ id ≠ (starts ipns).map.tree.rootHash

/-- Whatever the injectors and the client go through, a get_content that succeeds returns the
content and the time of a request that was made, for this url, to the injector of the name that
the client was on when it was called. -/
theorem requestsFetched (two : 2 ≤ cfg.maxNodeSize) (here : cfg.addOp = true) (retains : Retains ipfs.env R)
    (injective : cfg.json.DumpInjective fun _ => True) (lib : cfg.json.Documented) (documented : dt.Documented)
    {starts : StdString → InjectorDb World} {injectors : StdString → Service World Ptime}
    (start : ∀ ipns, InjectorDb.Starts cfg (starts ipns))
    (serve : ∀ ipns, Reach (· = .fresh (starts ipns)) (Service.Step cfg ipfs R content dt) (injectors ipns))
    (addressed : ∀ ipns, Addressed content R (injectors ipns).db.map.world) {s : GetContents σ Ptime}
    (run : s.Reached cfg.json S dt content (Sent starts injectors)) {w : Nat} {r : CachedContent Ptime}
    (answered : (w,.ok r) ∈ s.answers) :
    ∃ c d, s.calls[w]? = some c ∧ s.client.dbs[c.db]? = some d ∧
      ∃ e ∈ (injectors d.db.ipns).injector.calls, e.key = c.url ∧ e.ts = r.ts ∧ e.value = r.data := by
  obtain ⟨c,call,contentHash,⟨d,db,H,⟨published,new⟩,proper,value,stored,read⟩,cat⟩ :=
    (reachedKept run).answers w r answered
  obtain ⟨sane,dbRun⟩ := (Service.freshSane (start d.db.ipns)).run lib documented (serve d.db.ipns)
  have sending := InjectorDb.runSending two here retains injective lib.nodes (start d.db.ipns) dbRun
  have given := (sending.told (addressed d.db.ipns)).stored lib.nodes published new proper stored
  exact ⟨c,d,call,db,sane.request lib documented given read cat⟩

def oneCall : List GetEvent :=
  [.client (.begins 0),.client (.resolved 0 (.ok (StdString.decimal 0))),.getContent (letter 97),
    .block 0 0 (.ok Service.entryText),.content 0 (.ok (letter 49))]

theorem requestsFetchedOnce : ∃ (injectors : StdString → Service MockIpfs ClockTime)
    (s : GetContents MockStorage ClockTime) (w : Nat) (r : CachedContent ClockTime), (w,.ok r) ∈ s.answers ∧
    ∃ c d, s.calls[w]? = some c ∧ s.client.dbs[c.db]? = some d ∧
      ∃ e ∈ (injectors d.db.ipns).injector.calls, e.key = c.url ∧ e.ts = r.ts ∧ e.value = r.data := by
  have served : ((Service.play (Service.toUpdate ++ .begins 0 :: Service.fromUpdate)
      (.fresh Service.entryDb)).any fun s => decide (StdString.decimal 0 ∈ s.db.republisher.calls.map Prod.fst) &&
      s.db.map.world.blocks.blocks.all fun p => Service.entryContent p.1 = some p.2) = true := by
    decide +kernel
  have fetched : (newClient.play nlohmannAll MockStorage.storage boost Service.entryContent [StdString.decimal 0]
      oneCall).any (fun s => s.answers.any fun x => x.2.toBool) = true := by
    decide +kernel
  obtain ⟨injector,play_,seen⟩ := Option.any_eq_true _ _ |>.mp served
  simp only [Bool.and_eq_true,decide_eq_true_eq] at seen
  obtain ⟨s,played,told⟩ := Option.any_eq_true _ _ |>.mp fetched
  obtain ⟨⟨w,result⟩,mem,good⟩ := List.any_eq_true.mp told
  cases result with
  | error ec => cases good
  | ok r =>
    have new : StdString.decimal 0 ≠ Service.entryDb.map.tree.rootHash := by decide
    have solid : ∀ b ∈ (StdString.decimal 0).bytes, isSpace b = false := by decide +kernel
    have known : ∀ id ∈ [StdString.decimal 0], (∀ ipns, Sent (fun _ => Service.entryDb) (fun _ => injector) ipns id) ∧
        ∀ b ∈ id.bytes, isSpace b = false :=
      List.forall_mem_singleton.mpr ⟨fun _ => ⟨seen.1,new⟩,solid⟩
    have run : s.Reached nlohmannAll MockStorage.storage boost Service.entryContent
        (Sent (fun _ => Service.entryDb) fun _ => injector) :=
      playReach known newClientStarts played
    exact ⟨fun _ => injector,s,w,r,mem,@requestsFetched _ _ _ Service.entryConfig _ _ _ _ _ (by decide) rfl
      MockIpfs.pins.retainsKnown nlohmannDumpInjective nlohmannDocumented boostDocumented _ _
      (fun _ => Service.entryStarts) (fun _ => Service.playRun (.start rfl) play_)
      (fun _ => InjectorDb.contentAddressed seen.2) _ run _ _ mem⟩

end GetContents
end IpfsCache
