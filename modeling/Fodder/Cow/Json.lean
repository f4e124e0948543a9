import Fodder.Cow.Basic
import Fodder.Json

/-!
# Cows as the management page shows them
-/
namespace Fodder

def Feed.json (feed : Feed) : String :=
  Json.object [("station", toString feed.station.toNat), ("timestamp", toString feed.minute.toNat)]

def Cow.json (cow : Cow) : String :=
  Json.object
    [("name", Json.text cow.name),
     ("ear_tag", Json.text cow.earTag),
     ("collar_tag", toString cow.collar.toNat),
     ("ration_kg", cow.ration.json),
     ("calving_day", toString cow.calvingDay.toInt),
     ("feed_history", Json.list (cow.feeds.map Feed.json))]

end Fodder
