import ScriptMinifier.Text.Basic

/-! The words of the language: its types and its keywords. -/
namespace ScriptMinifier.Syntax

/-- The built-in types. -/
def datatypes : List Text := [
  "integer", "real", "string", "code", "boolean", "nothing", "handle", "agent",
  "event", "eventid",
  "player", "playerstate", "playerscore", "playergameresult", "playerevent",
  "playerunitevent", "playerslotstate", "playercolor",
  "widget", "widgetevent",
  "unit", "unitpool", "unitstate", "unitevent", "unittype",
  "destructable", "item", "itempool", "itemtype", "ability", "buff", "force",
  "group", "trigger", "triggercondition", "triggeraction", "timer",
  "timerdialog", "location", "region", "rect", "boolexpr", "sound",
  "conditionfunc", "filterfunc", "race", "racepreference",
  "gamestate", "igamestate", "fgamestate", "gameevent", "gamespeed",
  "gamedifficulty", "gametype", "gamecache", "aidifficulty", "limitop",
  "dialog", "dialogevent",
  "mapflag", "mapvisibility", "mapsetting", "mapdensity", "mapcontrol",
  "volumegroup", "camerafield", "camerasetup", "placement", "startlocprio",
  "raritycontrol", "blendmode", "texmapflags", "effect", "effecttype",
  "weathereffect", "terraindeformation", "fogstate", "fogmodifier", "button",
  "quest", "questitem", "defeatcondition", "leaderboard", "multiboard",
  "multiboarditem", "trackable", "version", "texttag", "attacktype",
  "damagetype", "weapontype", "soundtype", "pathingtype", "alliancetype",
  "lightning", "image", "ubersplat", "hashtable",
  "framehandle", "originframetype", "framepointtype", "textaligntype",
  "frameeventtype", "oskeytype", "minimapicon", "commandbuttoneffect",
  "mousebuttontype", "animtype", "subanimtype"].map String.toList

/-- The keywords. -/
def keywords : List Text := [
  "and", "array", "call", "constant", "debug", "else", "elseif", "endfunction",
  "endglobals", "endif", "endloop", "exitwhen", "extends", "false", "function",
  "globals", "if", "local", "loop", "native", "not", "nothing", "null", "or",
  "return", "returns", "set", "takes", "then", "true", "type"].map String.toList

/-- Whether a text names a built-in type. -/
def isDatatype (t : Text) : Bool := datatypes.contains t

end ScriptMinifier.Syntax
