import Fodder.Herd.Basic
import Fodder.Json

/-!
# Recent feeds

The latest feeds of the whole herd, for the management page. Entries are copies that name their
cow, so they stay right while the table of cows changes its order.
-/
namespace Fodder

structure RecentFeed where
  cow : String
  station : UInt8
  minute : UInt32
  deriving DecidableEq, Repr

/-- Feeds of the herd, oldest first. -/
abbrev RecentFeeds := List RecentFeed

namespace RecentFeeds

def capacity : Nat := 64

def entry (cow : String) (feed : Feed) : RecentFeed := ⟨cow, feed.station, feed.minute⟩

/-- Puts a feed before the first one that is not older. -/
def insert (feed : RecentFeed) : RecentFeeds → RecentFeeds
  | [] => [feed]
  | other :: rest =>
    if feed.minute ≤ other.minute then feed :: other :: rest else other :: insert feed rest

/-- Orders feeds by time; those of one minute keep their order. -/
def chronological (feeds : RecentFeeds) : RecentFeeds := feeds.foldr insert []

def ofCow (cow : Cow) : RecentFeeds := cow.feeds.map (entry cow.name)

/-- The newest feeds in all histories. -/
def ofHerd (herd : Herd) : RecentFeeds := newest capacity (chronological (herd.cows.flatMap ofCow))

/-- Takes up a feed that just happened. Names too long for a cow are no cow's. -/
def record (feeds : RecentFeeds) (cow : String) (feed : Feed) : RecentFeeds :=
  if Cow.nameCapacity < cow.utf8ByteSize then feeds
  else remember capacity feeds (entry cow feed)

def forget (feeds : RecentFeeds) (cow : String) : RecentFeeds := feeds.filter (·.cow ≠ cow)

/-- Up to `limit` feeds, newest first. -/
def latest (feeds : RecentFeeds) (limit : Nat) : List RecentFeed := feeds.reverse.take limit

end RecentFeeds

def RecentFeed.json (feed : RecentFeed) : String :=
  Json.object
    [("cow", Json.text feed.cow),
     ("station", toString feed.station.toNat),
     ("timestamp", toString feed.minute.toNat)]

end Fodder
