import IpfsCache.Invariant
import IpfsCache.Scratch
import IpfsCache.Lib.Reach
import IpfsCache.Overlap
import IpfsCache.OverlapSpec
import IpfsCache.LastWrite
import IpfsCache.Accepted
import IpfsCache.Custody
import IpfsCache.Accounting
import IpfsCache.NoneDropped
import IpfsCache.RoundTrip
import IpfsCache.Finders
import IpfsCache.Session
import IpfsCache.Republishing
import IpfsCache.Completions
import IpfsCache.ClientDb
import IpfsCache.StoreFailure
import IpfsCache.DurableUpdates
import IpfsCache.SavedTree
import IpfsCache.Snapshots
import IpfsCache.Retry
import IpfsCache.LoadRaces
import IpfsCache.Injecting
import IpfsCache.Untrusted
import IpfsCache.KeyCoding
import IpfsCache.Destruction
import IpfsCache.Overfull
import IpfsCache.Unchecked
import IpfsCache.Sharing
import IpfsCache.PathOnly
import IpfsCache.InsertCosts
import IpfsCache.Answers
import IpfsCache.EndToEnd
import IpfsCache.Delivery
import IpfsCache.ClientNames
import IpfsCache.Inserted
import IpfsCache.Requests
import IpfsCache.Lifetimes
import IpfsCache.OwnContents
import IpfsCache.StepsEnd
import IpfsCache.AllAnswered
import IpfsCache.AllPublished
import IpfsCache.ParseVars
