import AgentRules.Rules.Library

/-! # The built-in rules

The rules that are applied when no others are given. They come in files, one for each side of an
agent, and are merged in the order of the list at the end. -/

namespace AgentRules.BuiltIn

/-- The rules for what any agent gets. -/
def base : RuleLibrary where
  rules := [
    { extract := [
        "AgentClass : 1 : \"Browser\"",
        "AgentName : 1 : agent.(1)product.(1)name",
        "AgentVersion : 1 : agent.(1)product.(1)version"] },
    { require := ["IsNull[agent.(1-10)product]"],
      extract := ["AgentClass : 2 : \"Special\""] },
    { require := ["__SyntaxError__=\"true\""],
      extract := ["RemarkablePattern : 1 : \"UnbalancedParentheses\""] }]

/-- The rules for browsers. -/
def agents : RuleLibrary where
  rules := [
    { extract := [
        "AgentName : 200 : \"Chrome\"",
        "AgentVersion : 200 : agent.(1-10)product.(1)name=\"Chrome\"^.(1)version"] },
    { extract := [
        "AgentName : 210 : \"Chromium\"",
        "AgentVersion : 210 : agent.(1-10)product.(1)name=\"Chromium\"^.(1)version"] },
    { extract := [
        "AgentName : 200 : \"Firefox\"",
        "AgentVersion : 200 : agent.(1-10)product.(1)name=\"Firefox\"^.(1)version"] },
    { require := [
        "agent.(1-10)product.(1)name=\"Safari\"",
        "IsNull[agent.(1-10)product.(1)name=\"Chrome\"]"],
      extract := [
        "AgentName : 150 : \"Safari\"",
        "AgentVersion : 150 : agent.(1-10)product.(1)name=\"Version\"^.(1)version"] },
    { extract := [
        "AgentName : 300 : \"Edge\"",
        "AgentVersion : 300 : agent.(1-10)product.(1)name=\"Edg\"^.(1)version"] },
    { extract := [
        "AgentName : 300 : \"Edge\"",
        "AgentVersion : 300 : agent.(1-10)product.(1)name=\"EdgA\"^.(1)version"] },
    { extract := [
        "AgentName : 300 : \"Opera\"",
        "AgentVersion : 300 : agent.(1-10)product.(1)name=\"OPR\"^.(1)version"] },
    { extract := [
        "AgentName : 300 : \"Samsung Internet\"",
        "AgentVersion : 300 : agent.(1-10)product.(1)name=\"SamsungBrowser\"^.(1)version"] }]

/-- The rules for operating systems. -/
def operatingSystems : RuleLibrary where
  lookups := [
    ⟨"WindowsNTVersions", [
        ("10.0", "10"), ("6.3", "8.1"), ("6.2", "8"), ("6.1", "7"), ("6.0", "Vista"),
        ("5.2", "XP"), ("5.1", "XP"), ("5.0", "2000")], some "Unknown"⟩]
  rules := [
    { extract := [
        "OperatingSystemClass : 100 : \"Desktop\"",
        "OperatingSystemName : 100 : \"Windows NT\"",
        "OperatingSystemVersion : 100 : LookUp[WindowsNTVersions;agent.(1)product" ++
          ".(1)comments.(1-10)entry.(1)product.(1)name=\"Windows NT\"^.(1)version]"] },
    { require := [
        "agent.(1)product.(1)comments.(1-10)entry.(1)product.(1)name=\"Android\""],
      extract := [
        "OperatingSystemClass : 100 : \"Mobile\"",
        "OperatingSystemName : 100 : \"Android\"",
        "OperatingSystemVersion : 100 : agent.(1)product.(1)comments.(1-10)entry" ++
          ".(1)product.(1)name=\"Android\"^.(1)version"] },
    { extract := [
        "OperatingSystemClass : 100 : \"Mobile\"",
        "OperatingSystemName : 100 : \"iOS\"",
        "OperatingSystemVersion : 100 : CleanVersion[agent.(1)product.(1)comments" ++
          ".(1-10)entry^=\"CPU iPhone OS\"[4-5]]"] },
    { extract := [
        "OperatingSystemClass : 100 : \"Mobile\"",
        "OperatingSystemName : 100 : \"iPadOS\"",
        "OperatingSystemVersion : 100 : CleanVersion[agent.(1)product.(1)comments" ++
          ".(1-10)entry^=\"CPU OS\"[3-4]]"] },
    { extract := [
        "OperatingSystemClass : 100 : \"Desktop\"",
        "OperatingSystemName : 100 : \"Mac OS\"",
        "OperatingSystemVersion : 100 : CleanVersion[agent.(1)product.(1)comments" ++
          ".(1-10)entry.(1)product.(1)name=\"Intel Mac OS X\"^.(1)version]"] },
    { require := ["agent.(1)product.(1)comments.(1-10)entry.(1)text^=\"Linux\""],
      extract := [
        "OperatingSystemClass : 10 : \"Desktop\"",
        "OperatingSystemName : 10 : \"Linux\""] }]

/-- The rules for devices. -/
def devices : RuleLibrary where
  lookups := [
    ⟨"DeviceBrandPrefixes", [
        ("Nexus", "Google"), ("Pixel", "Google"), ("SM-", "Samsung"), ("GT-", "Samsung"),
        ("SAMSUNG", "Samsung"), ("Moto", "Motorola"), ("HUAWEI", "Huawei"), ("Redmi", "Xiaomi"),
        ("ONEPLUS", "OnePlus"), ("LG-", "LG"), ("Lenovo", "Lenovo")], none⟩]
  rules := [
    { require := [
        "agent.(1)product.(1)comments.(1-10)entry.(1)product.(1)name=\"Android\"",
        "agent.(1-10)product.(1)name=\"Mobile Safari\""],
      extract := ["DeviceClass : 100 : \"Phone\""] },
    { require := [
        "agent.(1)product.(1)comments.(1-10)entry.(1)product.(1)name=\"Android\"",
        "agent.(1)product.(1)comments.(1-10)entry=\"Mobile\""],
      extract := ["DeviceClass : 100 : \"Phone\""] },
    { require := [
        "agent.(1)product.(1)comments.(1-10)entry.(1)product.(1)name=\"Android\"",
        "IsNull[agent.(1-10)product.(1)name=\"Mobile Safari\"]",
        "IsNull[agent.(1)product.(1)comments.(1-10)entry=\"Mobile\"]"],
      extract := ["DeviceClass : 90 : \"Tablet\""] },
    { require := [
        "IsInLookUpPrefix[DeviceBrandPrefixes;agent.(1)product.(1)comments.(1-10)entry" ++
          ".(1)product.(1)name$=\"Build\"]"],
      extract := [
        "DeviceBrand : 100 : LookUpPrefix[DeviceBrandPrefixes;agent.(1)product" ++
          ".(1)comments.(1-10)entry.(1)product.(1)name$=\"Build\"]",
        "DeviceName : 100 : NormalizeBrand[agent.(1)product.(1)comments.(1-10)entry" ++
          ".(1)product.(1)name$=\"Build\"[1-2]]"] },
    { require := ["agent.(1)product.(1)comments.(1-10)entry=\"iPhone\""],
      extract := [
        "DeviceClass : 100 : \"Phone\"",
        "DeviceBrand : 100 : \"Apple\"",
        "DeviceName : 100 : \"Apple iPhone\""] },
    { require := ["agent.(1)product.(1)comments.(1-10)entry=\"iPad\""],
      extract := [
        "DeviceClass : 100 : \"Tablet\"",
        "DeviceBrand : 100 : \"Apple\"",
        "DeviceName : 100 : \"Apple iPad\""] },
    { require := ["agent.(1)product.(1)comments.(1-10)entry=\"Macintosh\""],
      extract := [
        "DeviceClass : 100 : \"Desktop\"",
        "DeviceBrand : 100 : \"Apple\"",
        "DeviceName : 100 : \"Apple Macintosh\""] },
    { require := [
        "agent.(1)product.(1)comments.(1-10)entry.(1)product.(1)name=\"Windows NT\""],
      extract := ["DeviceClass : 100 : \"Desktop\""] },
    { require := ["agent.(1)product.(1)comments.(1-10)entry=\"X11\""],
      extract := ["DeviceClass : 10 : \"Desktop\""] }]

/-- The rules for layout engines. -/
def layoutEngines : RuleLibrary where
  rules := [
    { extract := [
        "LayoutEngineClass : 100 : \"Browser\"",
        "LayoutEngineName : 100 : \"AppleWebKit\"",
        "LayoutEngineVersion : 100 : agent.(1-10)product.(1)name=\"AppleWebKit\"^.(1)version"] },
    { require := ["agent.(1-10)product.(1)name=\"AppleWebKit\""],
      extract := [
        "LayoutEngineName : 200 : \"Blink\"",
        "LayoutEngineVersion : 200 : agent.(1-10)product.(1)name=\"Chrome\"^.(1)version"] },
    { require := ["agent.(1-10)product.(1)name=\"Gecko\""],
      extract := [
        "LayoutEngineClass : 100 : \"Browser\"",
        "LayoutEngineName : 100 : \"Gecko\"",
        "LayoutEngineVersion : 100 : agent.(1)product.(1)comments.(1-10)entry" ++
          ".(1)keyvalue.(1)key=\"rv\"^.(1)version"] }]

/-- The rules for robots. -/
def robots : RuleLibrary where
  sets := [
    ⟨"Robots", [
        "Googlebot", "bingbot", "Baiduspider", "YandexBot", "DuckDuckBot", "Applebot",
        "AhrefsBot", "SemrushBot"]⟩]
  rules := [
    { extract := [
        "DeviceClass : 500 : \"Robot\"",
        "AgentClass : 500 : \"Robot\"",
        "AgentName : 500 : agent.(1-10)product.(1)comments.(1-10)entry.(1)product" ++
          ".(1)name@\x7b\"Robots\"\x7d",
        "AgentVersion : 500 : agent.(1-10)product.(1)comments.(1-10)entry.(1)product" ++
          ".(1)name@\x7b\"Robots\"\x7d^.(1)version"] },
    { require := [
        "agent.(1-10)product.(1)comments.(1-10)entry.(1)product.(1)name@\x7b\"Robots\"\x7d"],
      extract := [
        "AgentInformationUrl : 500 : agent.(1-10)product.(1)comments.(1-10)entry.(1)url"] },
    { extract := [
        "DeviceClass : 400 : \"Robot\"",
        "AgentClass : 400 : \"Robot\"",
        "AgentName : 400 : agent.(1-10)product.(1)name@\x7b\"Robots\"\x7d",
        "AgentVersion : 400 : agent.(1-10)product.(1)name@\x7b\"Robots\"\x7d^.(1)version"] }]

/-- The files of the built-in rules in order. -/
def files : List (String × RuleLibrary) := [
  ("base.json", base),
  ("agents.json", agents),
  ("operating_systems.json", operatingSystems),
  ("devices.json", devices),
  ("layout_engines.json", layoutEngines),
  ("robots.json", robots)]

def library : Except Fault RuleLibrary :=
  files.foldlM (fun merged (file, l) => merged.merge (l.stamp file)) {}

end AgentRules.BuiltIn
