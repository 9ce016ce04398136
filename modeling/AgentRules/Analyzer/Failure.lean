import AgentRules.Fault

/-! # What can fail around the rules

Rules can be missing or unreadable, they can be refused, and an analyzer can be asked for before
there is one. -/

namespace AgentRules

/-- Why a file cannot be read as text. -/
inductive ReadFault
  | notFound
  | isFolder
  | notUtf8
deriving Repr, DecidableEq

def ReadFault.message : ReadFault → String
  | notFound => "No such file or directory (os error 2)"
  | isFolder => "Is a directory (os error 21)"
  | notUtf8 => "stream did not contain valid UTF-8"

/-- Why there is no analyzer, or no result. -/
inductive Failure
  /-- A folder has no rule files. -/
  | noRuleFiles (path : String)
  /-- A rule file cannot be read. -/
  | unreadable (path : String) (fault : ReadFault)
  /-- Rules, or a tree, are refused. -/
  | refused (fault : Fault)
  /-- The shared analyzer has not been made yet. -/
  | notInitialized
  /-- The shared analyzer cannot be made. -/
  | initialization (ofRules : Bool) (cause : Failure)
  /-- The built-in rules are refused. -/
  | builtIn (fault : Fault)
  /-- The input cannot be read. -/
  | input (fault : ReadFault)
  /-- No text is short enough. -/
  | zeroLength
deriving Repr, DecidableEq

/-- The wording of the failure. -/
def Failure.message : Failure → String
  | noRuleFiles path => s!"规则加载失败：本地路径[{path}]下没有 .json 规则文件"
  | unreadable path fault => s!"规则加载失败：读取规则文件[{path}]失败: {fault.message}"
  | refused fault => s!"规则编译失败：{fault.message}"
  | notInitialized =>
    "分析器未初始化: Global UserAgentAnalyzer not initialized! " ++
      "Please call init_global_analyzer first"
  | initialization false cause =>
    s!"分析器初始化失败: Failed to create UserAgentAnalyzer instance: {cause.message}"
  | initialization true cause =>
    s!"分析器初始化失败: Failed to create UserAgentAnalyzer with custom rules: {cause.message}"
  | builtIn fault => s!"分析器初始化失败: 内置规则编译失败: {fault.message}"
  | input fault => s!"IO操作失败：{fault.message}"
  | zeroLength => "无效输入：max_user_agent_length must be greater than 0"

end AgentRules
